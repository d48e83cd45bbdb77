import GWKernel.UserMode

/-! What comes back from ring 3. `process_switch_to_user` saves only the stack pointer, so the
kernel goes on with the registers of the user program. -/

namespace GWKernel.UserMode
open Lib List

variable {m : Machine} {values : List UInt64} {image : Image}

def Stack (m : Machine) (values : List UInt64) : Prop := Words m.mem m.sp values

@[simp] theorem set_same (m : Machine) (reg : Reg) (value : UInt64) : (m.set reg value).regs reg = value := if_pos rfl

theorem set_other {reg other : Reg} (m : Machine) (value : UInt64) (differ : other ≠ reg) :
    (m.set reg value).regs other = m.regs other := if_neg differ

theorem sp_push (value : UInt64) (room : 8 ≤ m.sp) : (m.push value).sp = m.sp - 8 :=
  UInt64.toNat_sub_of_le _ _ (UInt64.le_iff_toNat_le.mpr room)

theorem push_regs {reg : Reg} (m : Machine) (value : UInt64) (differ : reg ≠ .rsp) :
    (m.push value).regs reg = m.regs reg := if_neg differ

theorem push_agree {address size : Nat} (value : UInt64) (room : 8 ≤ m.sp)
    (apart : address + size ≤ m.sp - 8 ∨ m.sp ≤ address) : Mem.Agree (m.push value).mem m.mem address size := by
  have down := sp_push value room
  refine setWord_agree _ _ ?_
  change address + size ≤ (m.push value).sp ∨ (m.push value).sp + 8 ≤ address
  omega

/-- The stack has grown by some words, and nothing else has changed but the flags and
the segments. -/
structure Pushed (m after : Machine) (values : List UInt64) : Prop where
  sp : after.sp + 8 * values.length = m.sp
  stack : Stack after values
  regs : ∀ reg, reg ≠ .rsp → after.regs reg = m.regs reg
  agree : ∀ address size, address + size ≤ after.sp ∨ m.sp ≤ address → Mem.Agree after.mem m.mem address size
  active : after.active = m.active

theorem Pushed.refl (m : Machine) : Pushed m m [] :=
  ⟨rfl, trivial, fun _ _ => rfl, fun _ _ _ _ _ _ => rfl, rfl⟩

theorem Pushed.push {after : Machine} (pushed : Pushed m after values) (value : UInt64) (room : 8 ≤ after.sp) :
    Pushed m (after.push value) (value :: values) := by
  have down := sp_push value room
  have before := pushed.sp
  refine ⟨?_, ⟨word_setWord _ _ _, ?_⟩, fun reg differ => ?_, fun address size apart => ?_, pushed.active⟩
  · rw [length_cons, down]
    omega
  · rw [down, Nat.sub_add_cancel room]
    exact pushed.stack.agree (push_agree value room (by omega))
  · exact (push_regs after value differ).trans (pushed.regs reg differ)
  · rw [down] at apart
    exact (push_agree value room (by omega)).trans (pushed.agree address size (by omega))

theorem Pushed.pushes {after : Machine} (pushed : Pushed m after values) (more : List UInt64)
    (room : 8 * more.length ≤ after.sp) : Pushed m (more.foldl Machine.push after) (more.reverse ++ values) := by
  induction more generalizing after values with
  | nil => exact pushed
  | cons value rest ih =>
    rw [length_cons] at room
    have down := sp_push value (show 8 ≤ after.sp by omega)
    rw [reverse_cons, append_assoc]
    exact ih (pushed.push value (by omega)) (by omega)

theorem exec_pushes {regs : List Reg} (m : Machine) (general : .rsp ∉ regs) :
    exec (regs.map .push) m = (regs.map m.regs).foldl Machine.push m := by
  induction regs generalizing m with
  | nil => rfl
  | cons reg rest ih =>
    obtain ⟨_, others⟩ := ne_and_not_mem_of_not_mem_cons general
    have same : rest.map (m.push (m.regs reg)).regs = rest.map m.regs :=
      map_congr_left fun other member => push_regs m _ fun is => others (is ▸ member)
    exact (ih (m.push (m.regs reg)) others).trans (by rw [same]; rfl)

theorem Stack.pop {value : UInt64} {reg : Reg} (stack : Stack m (value :: values)) (room : m.sp + 8 < 2 ^ 64)
    (general : reg ≠ .rsp) : Stack (m.pop reg) values ∧ (m.pop reg).sp = m.sp + 8 ∧ (m.pop reg).regs reg = value ∧
      ∀ other, other ≠ reg → other ≠ .rsp → (m.pop reg).regs other = m.regs other := by
  have up : (m.pop reg).sp = m.sp + 8 := by
    change ((m.pop reg).regs .rsp).toNat = (m.regs .rsp).toNat + 8
    rw [show (m.pop reg).regs .rsp = m.regs .rsp + 8 from (set_other _ _ general.symm).trans (set_same _ _ _),
      UInt64.toNat_add]
    exact Nat.mod_eq_of_lt room
  refine ⟨?_, up, (set_same _ _ _).trans stack.1, fun other differ notRsp => ?_⟩
  · unfold Stack
    rw [up]
    exact stack.2
  · exact (set_other _ _ differ).trans (set_other _ _ notRsp)

theorem Stack.pops {regs : List Reg} {popped : List UInt64} (stack : Stack m (popped ++ values))
    (length : popped.length = regs.length) (general : .rsp ∉ regs) (distinct : regs.Nodup)
    (room : m.sp + 8 * regs.length < 2 ^ 64) :
    regs.map (exec (regs.map .pop) m).regs = popped ∧ Stack (exec (regs.map .pop) m) values ∧
      (exec (regs.map .pop) m).sp = m.sp + 8 * regs.length ∧ (exec (regs.map .pop) m).mem = m.mem ∧
      ∀ other ∉ regs, other ≠ .rsp → (exec (regs.map .pop) m).regs other = m.regs other := by
  induction regs generalizing m popped with
  | nil =>
    obtain rfl := length_eq_zero_iff.mp length
    exact ⟨rfl, stack, rfl, rfl, fun _ _ _ => rfl⟩
  | cons reg rest ih =>
    obtain ⟨value, others, rfl⟩ := exists_cons_of_length_eq_add_one length
    obtain ⟨notRsp, restGeneral⟩ := ne_and_not_mem_of_not_mem_cons general
    obtain ⟨fresh, restDistinct⟩ := nodup_cons.mp distinct
    rw [length_cons] at room
    obtain ⟨next, up, loaded, kept⟩ := Stack.pop stack (by omega) notRsp.symm
    obtain ⟨values, last, above, same, unchanged⟩ := ih next (Nat.succ.inj length) restGeneral restDistinct (by omega)
    refine ⟨?_, last, ?_, same, fun other outside general => ?_⟩
    · rw [map_cons]
      exact congrArg₂ List.cons ((unchanged reg fresh notRsp.symm).trans loaded) values
    · rw [length_cons]
      exact above.trans (by omega)
    · obtain ⟨differ, outsideRest⟩ := ne_and_not_mem_of_not_mem_cons outside
      exact (unchanged other outsideRest general).trans (kept other differ general)

theorem exec_append (first second : List Instr) (m : Machine) :
    exec (first ++ second) m = exec second (exec first m) := foldl_append

/-- The stack of the caller, `current_proc` and `user_kstack` are different objects, and the stack
has room. -/
structure Apart (image : Image) (caller : Machine) : Prop where
  room : 48 ≤ caller.sp
  kstack : image.userKstack.toNat + 16384 < 2 ^ 64
  aligned : image.userKstack.toNat % 16 = 0
  procStack : (⟨image.kernelRsp.toNat, 8⟩ : Span).Apart ⟨caller.sp - 48, 48⟩
  procKstack : (⟨image.kernelRsp.toNat, 8⟩ : Span).Apart ⟨image.userKstack.toNat, 16384⟩
  separate : (⟨caller.sp - 48, 48⟩ : Span).Apart ⟨image.userKstack.toNat, 16384⟩

variable {caller user : Machine} {entry back : UInt64}

theorem switch_eq {called saved : Machine}
    (is : exec [.store .rdx .rsp, .cli, .movAx 0x23, .movSeg .ds, .movSeg .es] called = saved) :
    exec processSwitchToUser called =
      ([0x23, saved.regs .rsi, 0x202, 0x1B, saved.regs .rdi].foldl Machine.push saved).iretq := by
  rw [← is]
  simp only [processSwitchToUser, exec, foldl_cons, foldl_nil, Instr.exec,
    push_regs _ _ (show Reg.rsi ≠ .rsp by decide), push_regs _ _ (show Reg.rdi ≠ .rsp by decide)]

theorem iretq_mem (m : Machine) : m.iretq.mem = m.mem := by
  rw [Machine.iretq, Machine.set, Machine.setSeg]

theorem iretq_active (m : Machine) : m.iretq.active = m.active := by
  rw [Machine.iretq, Machine.set, Machine.setSeg]

theorem enterAt_saves (apart : Apart image caller) :
    word (enterAt image entry back caller).mem image.kernelRsp.toNat = caller.regs .rsp - 8 ∧
      word (enterAt image entry back caller).mem (caller.sp - 8) = back ∧
      (enterAt image entry back caller).active = true := by
  have room := apart.room
  have outside := apart.procStack
  simp only [Span.Apart] at outside
  unfold enterAt
  dsimp only
  generalize started : (((Machine.set { caller with
      active := true, exitCode := 0xFFFFFFFF, lastExitCode := 0xFFFFFFFFFFFFFFFF } .rdi entry).set .rsi
      userStackTop).set .rdx image.kernelRsp) = ready
  have rsp : ready.regs .rsp = caller.regs .rsp := by rw [← started]; rfl
  have rdx : ready.regs .rdx = image.kernelRsp := by rw [← started]; rfl
  have isActive : ready.active = true := by rw [← started]; rfl
  have depth : ready.sp = caller.sp := congrArg UInt64.toNat rsp
  have down : (ready.push back).sp = caller.sp - 8 := depth ▸ sp_push back (by omega)
  generalize is : exec [.store .rdx .rsp, .cli, .movAx 0x23, .movSeg .ds, .movSeg .es] (ready.push back) = saved
  have mem : saved.mem = setWord (ready.push back).mem image.kernelRsp.toNat (caller.regs .rsp - 8) := by
    rw [← is, ← rdx, ← rsp]
    rfl
  have same : saved.sp = (ready.push back).sp := by rw [← is]; rfl
  have stored : word saved.mem image.kernelRsp.toNat = caller.regs .rsp - 8 := by rw [mem, word_setWord]
  have kept : word saved.mem (caller.sp - 8) = back := by
    rw [mem, word_agree (setWord_agree _ _ (by omega)), ← down]
    exact word_setWord _ _ _
  -- The frame for `iretq` goes below the return address.
  have frame := (Pushed.refl saved).pushes [0x23, saved.regs .rsi, 0x202, 0x1B, saved.regs .rdi]
    (by rw [same, down]; change 40 ≤ _; omega)
  have lower := frame.sp
  change _ + 40 = saved.sp at lower
  rw [switch_eq is, iretq_mem, iretq_active]
  refine ⟨(word_agree (frame.agree _ _ ?_)).trans stored, (word_agree (frame.agree _ _ ?_)).trans kept, ?_⟩
  · omega
  · omega
  · rw [frame.active, ← is]
    exact isActive

/-- A user program makes the exit call: registers, flags and memory are arbitrary, apart from what
was saved. -/
structure Exits (image : Image) (caller entered user : Machine) : Prop where
  number : user.regs .rax = sysExit
  ring : user.cs &&& 3 = 3
  active : user.active = entered.active
  proc : Mem.Agree user.mem entered.mem image.kernelRsp.toNat 8
  stack : Mem.Agree user.mem entered.mem (caller.sp - 8) 8

def frame (user : Machine) : List UInt64 :=
  (savedRegs.map user.regs).reverse ++
    [128, 0, user.rip, user.cs, user.rflags, user.regs .rsp, user.segs .ss]

def exitFrame (image : Image) (kernelRsp : UInt64) (user : Machine) : List UInt64 :=
  (savedRegs.map (user.set .rax (user.regs .rdi)).regs).reverse ++
    [128, 0, image.processUserResume, 0x08, 0x202, kernelRsp, 0x10]

theorem stub_entered (kstack : image.userKstack.toNat + 16384 < 2 ^ 64) (aligned : image.userKstack.toNat % 16 = 0) :
    ∃ entered : Machine, exec isrStub128Entry (interrupt image user) = entered.set .rdi (entered.regs .rsp) ∧
      entered.sp + 176 = image.userKstack.toNat + 16384 ∧ Stack entered (frame user) ∧ entered.active = user.active ∧
      ∀ address size, address + size ≤ entered.sp ∨ image.userKstack.toNat + 16384 ≤ address →
        Mem.Agree entered.mem user.mem address size := by
  obtain ⟨top, is⟩ : ∃ top, user.set .rsp (UInt64.ofNat ((rsp0 image).toNat / 16 * 16)) = top := ⟨_, rfl⟩
  have high : top.sp = image.userKstack.toNat + 16384 := by
    have sum : (rsp0 image).toNat = image.userKstack.toNat + 16384 := by
      unfold rsp0
      rw [UInt64.toNat_add]
      exact Nat.mod_eq_of_lt kstack
    rw [← is, Machine.sp, set_same, sum, UInt64.toNat_ofNat', Nat.mod_eq_of_lt (by omega)]
    omega
  have mem : top.mem = user.mem := by rw [← is]; rfl
  have active : top.active = user.active := by rw [← is]; rfl
  have pushed : Pushed top (interrupt image user)
      [user.rip, user.cs, user.rflags, user.regs .rsp, user.segs .ss] := by
    have words := (Pushed.refl top).pushes [user.segs .ss, user.regs .rsp, user.rflags, user.cs, user.rip]
      (by rw [high]; change 40 ≤ _; omega)
    simp only [foldl_cons, foldl_nil] at words
    unfold interrupt
    rw [is]
    generalize ((((top.push (user.segs .ss)).push (user.regs .rsp)).push user.rflags).push user.cs).push user.rip = after
      at words ⊢
    exact ⟨words.sp, words.stack, words.regs, words.agree, words.active⟩
  have lower := pushed.sp
  change _ + 40 = top.sp at lower
  have stub := pushed.pushes ([0, 128] ++ savedRegs.map user.regs) (by change 136 ≤ _; omega)
  have total := stub.sp
  change _ + 176 = top.sp at total
  refine ⟨_, ?_, total.trans high, stub.stack, stub.active.trans active, fun address size apart => ?_⟩
  · have same : savedRegs.map (((interrupt image user).push 0).push 128).regs = savedRegs.map user.regs := by
      refine map_congr_left fun reg member => ?_
      have general : reg ≠ .rsp := fun is => absurd (is ▸ member) (by decide)
      rw [push_regs _ _ general, push_regs _ _ general, pushed.regs reg general, ← is, set_other user _ general]
    unfold isrStub128Entry
    rw [exec_append, exec_append, exec_pushes _ (by decide), foldl_append, ← same]
    rfl
  · rw [← mem]
    exact stub.agree address size (by rwa [high])

theorem storeField_agree {f field address size : Nat} (m : Machine) (value : UInt64) (inside : field < 22)
    (apart : (⟨address, size⟩ : Span).Apart ⟨f, 176⟩) : Mem.Agree (storeField m f field value).mem m.mem address size := by
  simp only [Span.Apart] at apart
  exact setWord_agree _ _ (by omega)

theorem processHandleExit_frame {f : Nat} {m : Machine} (words : Words m.mem f (frame user)) (active : m.active = true)
    (apart : (⟨image.kernelRsp.toNat, 8⟩ : Span).Apart ⟨f, 176⟩) :
    (processHandleExit image f (user.regs .rdi) m).1 = true ∧
      Words (processHandleExit image f (user.regs .rdi) m).2.mem f
        (exitFrame image (word m.mem image.kernelRsp.toNat) user) ∧
      ∀ address size, (⟨address, size⟩ : Span).Apart ⟨f, 176⟩ →
        Mem.Agree (processHandleExit image f (user.regs .rdi) m).2.mem m.mem address size := by
  unfold processHandleExit
  rw [if_neg (by rw [active]; decide)]
  generalize started : ({ m with exitCode := (user.regs .rdi).toUInt32, lastExitCode := user.regs .rdi, active := false } :
    Machine) = first
  have same : first.mem = m.mem := by rw [← started]
  rw [← same] at words ⊢
  dsimp only
  let second := storeField first f fieldRip image.processUserResume
  let third := storeField second f fieldCs 0x08
  let fourth := storeField third f fieldRflags 0x202
  have early {address size : Nat} (away : (⟨address, size⟩ : Span).Apart ⟨f, 176⟩) :
      Mem.Agree fourth.mem first.mem address size :=
    (storeField_agree third _ (by decide) away).trans
      ((storeField_agree second _ (by decide) away).trans (storeField_agree first _ (by decide) away))
  have saved : word fourth.mem image.kernelRsp.toNat = word first.mem image.kernelRsp.toNat := word_agree (early apart)
  refine ⟨rfl, ?_, fun address size away => ?_⟩
  · have fields : exitFrame image (word fourth.mem image.kernelRsp.toNat) user =
        ((((((frame user).set fieldRip image.processUserResume).set fieldCs 0x08).set fieldRflags 0x202).set fieldRsp
          (word fourth.mem image.kernelRsp.toNat)).set fieldSs 0x10).set fieldRax (user.regs .rdi) := rfl
    rw [← saved, fields]
    exact (((((words.set fieldRip image.processUserResume).set fieldCs 0x08).set fieldRflags 0x202).set fieldRsp
      (word fourth.mem image.kernelRsp.toNat)).set fieldSs 0x10).set fieldRax (user.regs .rdi)
  · exact (storeField_agree _ _ (by decide) away).trans ((storeField_agree _ _ (by decide) away).trans
      ((storeField_agree fourth _ (by decide) away).trans (early away)))

theorem syscallEntryC_exits {dispatch : Dispatch} {f : Nat} {m : Machine} (words : Words m.mem f (frame user))
    (number : user.regs .rax = sysExit) (ring : user.cs &&& 3 = 3) (active : m.active = true)
    (apart : (⟨image.kernelRsp.toNat, 8⟩ : Span).Apart ⟨f, 176⟩) :
    syscallEntryC image dispatch f m = (processHandleExit image f (user.regs .rdi) m).2 := by
  have isExit : loadField m f fieldRax = sysExit := (Words.get words rfl).trans number
  have isUser : loadField m f fieldCs &&& 3 = 3 := by
    rw [show loadField m f fieldCs = user.cs from Words.get words rfl]
    exact ring
  have code : loadField m f fieldRdi = user.regs .rdi := Words.get words rfl
  have handled := (processHandleExit_frame words active apart).1
  unfold syscallEntryC
  rw [if_pos ⟨isExit, isUser⟩, code]
  generalize processHandleExit image f (user.regs .rdi) m = outcome at handled ⊢
  obtain ⟨rewritten, after⟩ := outcome
  cases handled
  rfl

theorem callC_agree {scratch : Scratch} {code : Nat → Machine → Machine} {m : Machine} {address size : Nat}
    (apart : address + size ≤ image.userKstack.toNat ∨ m.sp ≤ address) :
    Mem.Agree (callC image scratch code m).mem (code (m.regs .rdi).toNat m).mem address size := by
  intro other above below
  exact if_neg (by omega)

theorem stub_left {m : Machine} {kernelRsp : UInt64} (stack : Stack m (exitFrame image kernelRsp user))
    (room : m.sp + 176 < 2 ^ 64) : (exec isrStub128Exit m).rip = image.processUserResume ∧
      (exec isrStub128Exit m).regs .rsp = kernelRsp ∧ (exec isrStub128Exit m).mem = m.mem ∧
      ∀ reg ∈ calleeSaved, (exec isrStub128Exit m).regs reg = user.regs reg := by
  obtain ⟨loaded, rest, up, same, _⟩ := @Stack.pops m _ savedRegs.reverse _ stack (by simp) (by decide) (by decide)
    (show m.sp + 120 < 2 ^ 64 by omega)
  rw [map_reverse, reverse_inj] at loaded
  unfold isrStub128Exit
  rw [exec_append]
  generalize exec (savedRegs.reverse.map .pop) m = popped at *
  change popped.sp = m.sp + 120 at up
  generalize is : popped.set .rsp (popped.regs .rsp + 16) = skipped
  have tail : exec [.addRsp 16, .iretq] popped = skipped.iretq := by
    rw [← is]
    rfl
  have mem : skipped.mem = popped.mem := by
    rw [← is]
    rfl
  have above : skipped.sp = popped.sp + 8 * 2 := by
    rw [← is, Machine.sp, set_same, UInt64.toNat_add]
    exact Nat.mod_eq_of_lt (show popped.sp + 16 < 2 ^ 64 by omega)
  rw [tail, iretq_mem, mem, Machine.iretq]
  refine ⟨?_, ?_, same, fun reg member => ?_⟩
  · change word skipped.mem skipped.sp = _
    rw [mem, above]
    exact Words.get rest rfl
  · rw [set_same, mem, above, show popped.sp + 8 * 2 + 24 = popped.sp + 8 * 5 by omega]
    exact Words.get rest rfl
  · have general : reg ≠ .rsp := fun is => absurd (is ▸ member) (by decide)
    have notRax : reg ≠ .rax := fun is => absurd (is ▸ member) (by decide)
    have listed : reg ∈ savedRegs := (show ∀ reg ∈ calleeSaved, reg ∈ savedRegs by decide) reg member
    rw [set_other _ _ general]
    change skipped.regs reg = _
    rw [← is, set_other _ _ general, map_inj_left.mp loaded reg listed, set_other _ _ notRax]

theorem resume_returns (m : Machine) : (exec processUserResume m).rip = word m.mem m.sp ∧
    (exec processUserResume m).regs .rsp = m.regs .rsp + 8 ∧
    ∀ reg ∈ calleeSaved, (exec processUserResume m).regs reg = m.regs reg := by
  simp only [processUserResume, exec, foldl_cons, foldl_nil, Instr.exec, Machine.ret, Machine.setSeg, Machine.sp,
    set_same]
  refine ⟨?_, ?_, fun reg member => ?_⟩
  · rw [set_other _ _ (by decide)]
    rfl
  · rw [set_other _ _ (by decide)]
  · have general : reg ≠ .rsp := fun is => absurd (is ▸ member) (by decide)
    have notRax : reg ≠ .rax := fun is => absurd (is ▸ member) (by decide)
    rw [set_other _ _ general]
    exact set_other _ _ notRax

/-- The stack pointer comes back, and the other registers exactly when the user program has not
changed them. -/
theorem exit_keeps_registers_iff (dispatch : Dispatch) (scratch : Scratch) (apart : Apart image caller)
    (exits : Exits image caller (enterAt image entry back caller) user) :
    ∃ after, returnFrom image dispatch scratch user = some after ∧ after.rip = back ∧
      after.regs .rsp = caller.regs .rsp ∧
      ((∀ reg ∈ calleeSaved, after.regs reg = caller.regs reg) ↔
        ∀ reg ∈ calleeSaved, user.regs reg = caller.regs reg) := by
  obtain ⟨saved, returns, isActive⟩ := @enterAt_saves image caller entry back apart
  obtain ⟨entered, stub, depth, stack, active, outside⟩ := @stub_entered image user apart.kstack apart.aligned
  have room := apart.room
  have kstack := apart.kstack
  have procKstack := apart.procKstack
  have separate := apart.separate
  simp only [Span.Apart] at procKstack separate
  unfold returnFrom isrStub128
  rw [stub]
  generalize is : entered.set .rdi (entered.regs .rsp) = ready
  have sp : ready.sp = entered.sp := by
    rw [← is]
    rfl
  have mem : ready.mem = entered.mem := by
    rw [← is]
    rfl
  have pointer : (ready.regs .rdi).toNat = ready.sp := by
    rw [sp, ← is, set_same]
    rfl
  have words : Words ready.mem ready.sp (frame user) := by
    rw [mem, sp]
    exact stack
  have running : ready.active = true := by
    rw [← is]
    exact active.trans (exits.active.trans isActive)
  have away : (⟨image.kernelRsp.toNat, 8⟩ : Span).Apart ⟨ready.sp, 176⟩ := by
    simp only [Span.Apart]
    omega
  have kernelRsp : word ready.mem image.kernelRsp.toNat = caller.regs .rsp - 8 := by
    rw [mem, word_agree (outside _ _ (by omega)), word_agree exits.proc]
    exact saved
  obtain ⟨_, edited, kept⟩ := processHandleExit_frame words running away
  rw [kernelRsp] at edited
  have handled := @syscallEntryC_exits image user dispatch _ _ words exits.number exits.ring running away
  generalize called : callC image scratch (syscallEntryC image dispatch) ready = left
  have leftSp : left.sp = ready.sp := by
    rw [← called]
    rfl
  have leftMem {address size : Nat} (apart : address + size ≤ image.userKstack.toNat ∨ ready.sp ≤ address) :
      Mem.Agree left.mem (processHandleExit image ready.sp (user.regs .rdi) ready).2.mem address size := by
    rw [← called, ← handled, ← pointer]
    exact callC_agree apart
  have leftStack : Stack left (exitFrame image (caller.regs .rsp - 8) user) := by
    unfold Stack
    rw [leftSp]
    exact edited.agree (leftMem (.inr (Nat.le_refl _)))
  obtain ⟨rip, rsp, sameMem, regs⟩ := stub_left leftStack (by omega)
  generalize exec isrStub128Exit left = resumed at rip rsp sameMem regs
  dsimp only
  rw [if_pos rip]
  obtain ⟨goesOn, popped, keeps⟩ := resume_returns resumed
  have slot : resumed.sp = caller.sp - 8 := by
    rw [Machine.sp, rsp]
    exact UInt64.toNat_sub_of_le _ _ (UInt64.le_iff_toNat_le.mpr (show 8 ≤ caller.sp by omega))
  refine ⟨_, rfl, ?_, ?_, ?_⟩
  · rw [goesOn, sameMem, slot, word_agree (leftMem (by omega)),
      word_agree (kept _ _ (by simp only [Span.Apart]; omega)), mem, word_agree (outside _ _ (by omega)),
      word_agree exits.stack]
    exact returns
  · rw [popped, rsp, UInt64.sub_add_cancel]
  · refine forall₂_congr fun reg member => ?_
    rw [keeps reg member, regs reg member]

def sampleImage : Image := ⟨0x101000, 0x102000, 0x200000, 0x210000⟩

def sampleCaller : Machine :=
  ⟨fun reg => if reg = .rsp then 0x180000 else 0, fun _ => 0, 0x103000, 0x08, 0x202, fun _ => 0x10, false, 0, 0⟩

def sampleProgram (rbx : UInt64) : Machine :=
  { enterAt sampleImage 0x400000 0x103005 sampleCaller with
    regs := fun reg => match reg with
      | .rax => sysExit
      | .rbx => rbx
      | .rsp => 0x402000
      | _ => 0
    cs := 0x1B }

theorem sampleProgram_exits (rbx : UInt64) :
    Exits sampleImage sampleCaller (enterAt sampleImage 0x400000 0x103005 sampleCaller) (sampleProgram rbx) :=
  ⟨rfl, show (0x1B : UInt64) &&& 3 = 3 by decide, rfl, fun _ _ _ => rfl, fun _ _ _ => rfl⟩

def quietDispatch : Dispatch := fun _ _ _ _ _ m => (0, m)

def blankScratch : Scratch := ⟨fun _ => 0, fun _ => 0, 0x202⟩

theorem sample_apart : Apart sampleImage sampleCaller where
  room := by decide
  kstack := by decide
  aligned := by decide
  procStack := by decide
  procKstack := by decide
  separate := by decide

theorem exit_keeps_registers_of_idle_program : ∃ after,
    returnFrom sampleImage quietDispatch blankScratch (sampleProgram 0) = some after ∧ after.rip = 0x103005 ∧
      after.regs .rsp = 0x180000 ∧ ∀ reg ∈ calleeSaved, after.regs reg = sampleCaller.regs reg := by
  obtain ⟨after, returned, rip, rsp, registers⟩ :=
    exit_keeps_registers_iff quietDispatch blankScratch sample_apart (sampleProgram_exits 0)
  exact ⟨after, returned, rip, rsp, registers.mpr (by decide)⟩

theorem exit_leaks_rbx : ∃ after,
    returnFrom sampleImage quietDispatch blankScratch (sampleProgram 7) = some after ∧ after.rip = 0x103005 ∧
      sampleCaller.regs .rbx = 0 ∧ after.regs .rbx = 7 := by
  have runs : (returnFrom sampleImage quietDispatch blankScratch (sampleProgram 7)).map
      (fun after => decide (after.rip = 0x103005 ∧ after.regs .rbx = 7)) = some true := by
    decide +kernel
  obtain ⟨after, returned, checked⟩ := Option.map_eq_some_iff.mp runs
  obtain ⟨rip, rbx⟩ := of_decide_eq_true checked
  exact ⟨after, returned, rip, rfl, rbx⟩

end GWKernel.UserMode
