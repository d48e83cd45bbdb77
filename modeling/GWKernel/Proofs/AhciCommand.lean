import GWKernel.Ahci

/-! The command that `ahci_rw` hands to the controller. All of it decodes to the request but the
first dword of the header, in which FIS length and table length have changed places. -/

namespace GWKernel.Ahci
open Lib List

variable {state after : State}

def wanted (lba count buf : Nat) (write : Bool) : Command where
  fisLength := 5
  write := write
  fis := ⟨0x27, true, if write then 0x35 else 0x25, lba, 0x40, count⟩
  prds := [⟨buf, count * 512⟩]

/-- The command given: a FIS of one dword, and a table of five entries of which four are blank. -/
def given (lba count buf : Nat) (write : Bool) : Command :=
  { wanted lba count buf write with
    fisLength := 1
    prds := ⟨buf, count * 512⟩ :: List.replicate 4 ⟨0, 1⟩ }

section Memory

variable (mem : Mem) {clBase ctBase lba count buf : Nat} (write : Bool)

theorem putHeader_flags : (putHeader mem clBase ctBase write).le clBase 4 = if write then 0x50041 else 0x50001 := by
  unfold putHeader
  iterate 3 rw [Mem.le_put_apart _ _ _ _ (by omega)]
  rw [Mem.le_put]
  cases write <;> decide

theorem putHeader_table (narrow : ctBase < 2 ^ 64) : (putHeader mem clBase ctBase write).le (clBase + 8) 8 = ctBase := by
  rw [show 8 = 4 + 4 from rfl, Mem.le_add]
  unfold putHeader
  rw [Mem.le_put_apart _ _ _ _ (by omega), Mem.le_put, Mem.le_put, Nat.shiftRight_eq_div_pow]
  omega

theorem putTable_header {other size : Nat} (before : other + size ≤ ctBase) :
    (putTable mem ctBase lba count buf write).le other size = mem.le other size := by
  unfold putTable
  iterate 4 rw [Mem.le_put_apart _ _ _ _ (by omega)]
  rw [Mem.le_copy_apart _ _ _ (by omega), Mem.le_fill_apart _ _ _ _ (by omega)]

theorem putTable_fis {offset size : Nat} (inside : offset + size ≤ 16) :
    (putTable mem ctBase lba count buf write).le (ctBase + offset) size =
      Mem.le (fun index => (fisBytes lba count write).getD index 0) offset size := by
  unfold putTable
  iterate 4 rw [Mem.le_put_apart _ _ _ _ (by omega)]
  rw [Mem.le_copy _ _ (by simpa [fisBytes] using inside)]

theorem decodeFis_putTable (inside : lba < 2 ^ 48) (few : count ≤ 8) :
    decodeFis (putTable mem ctBase lba count buf write) ctBase = (wanted lba count buf write).fis := by
  have start := @putTable_fis mem ctBase lba count buf write 0 1 (by omega)
  rw [Nat.add_zero] at start
  unfold decodeFis
  rw [start, putTable_fis _ _ (by omega), putTable_fis _ _ (by omega), putTable_fis _ _ (by omega),
    putTable_fis _ _ (by omega), putTable_fis _ _ (by omega), putTable_fis _ _ (by omega)]
  have address : Mem.le (fun index => (fisBytes lba count write).getD index 0) 4 3 +
      Mem.le (fun index => (fisBytes lba count write).getD index 0) 8 3 * 2 ^ 24 = lba := by
    simp only [Mem.le, fisBytes, getD_cons_succ, getD_cons_zero, UInt8.toNat_ofNat', Nat.shiftRight_eq_div_pow]
    omega
  have sectors : Mem.le (fun index => (fisBytes lba count write).getD index 0) 12 2 = count := by
    simp only [Mem.le, fisBytes, getD_cons_succ, getD_cons_zero, UInt8.toNat_ofNat', Nat.shiftRight_eq_div_pow]
    omega
  rw [address, sectors]
  cases write <;> simp [Mem.le, fisBytes, wanted]

theorem decodePrd_first (narrow : buf < 2 ^ 64) (some : 0 < count) (few : count ≤ 8) :
    decodePrd (putTable mem ctBase lba count buf write) (ctBase + 0x80) = ⟨buf, count * 512⟩ := by
  have address : (putTable mem ctBase lba count buf write).le (ctBase + 0x80) 8 = buf := by
    rw [show 8 = 4 + 4 from rfl, Mem.le_add]
    unfold putTable
    iterate 3 rw [Mem.le_put_apart _ _ _ _ (by omega)]
    rw [Mem.le_put]
    iterate 2 rw [Mem.le_put_apart _ _ _ _ (by omega)]
    rw [Mem.le_put, Nat.shiftRight_eq_div_pow]
    omega
  have size : (putTable mem ctBase lba count buf write).le (ctBase + 0x80 + 12) 4 % 2 ^ 22 + 1 = count * 512 := by
    have joined : (count * 512 - 1) ||| 1 <<< 31 = 2 ^ 31 * 1 + (count * 512 - 1) := by
      rw [Nat.or_comm]
      exact (Nat.two_pow_add_eq_or_of_lt (i := 31) (by omega) 1).symm
    unfold putTable
    rw [Mem.le_put, joined]
    omega
  rw [decodePrd, address, size]

theorem decodePrd_later {offset : Nat} (low : 0x90 ≤ offset) (high : offset + 16 ≤ 256) :
    decodePrd (putTable mem ctBase lba count buf write) (ctBase + offset) = ⟨0, 1⟩ := by
  have blank : ∀ {place size : Nat}, ctBase + 0x90 ≤ place → place + size ≤ ctBase + 256 →
      (putTable mem ctBase lba count buf write).le place size = 0 := by
    intro place size above below
    unfold putTable
    iterate 4 rw [Mem.le_put_apart _ _ _ _ (by omega)]
    rw [Mem.le_copy_apart _ _ _ (by simp only [fisBytes, length_cons, length_nil]; omega),
      Mem.le_fill_zero _ (by omega) (by omega)]
  rw [decodePrd, blank (by omega) (by omega), blank (by omega) (by omega)]
  rfl

theorem decode_given (apart : clBase + 32 ≤ ctBase) (table : ctBase < 2 ^ 64) (inside : lba < 2 ^ 48)
    (narrow : buf < 2 ^ 64) (some : 0 < count) (few : count ≤ 8) :
    decode (putTable (putHeader mem clBase ctBase write) ctBase lba count buf write) clBase =
      given lba count buf write := by
  have flags := (@putTable_header (putHeader mem clBase ctBase write) ctBase lba count buf write clBase 4 (by omega)).trans
    (putHeader_flags mem write)
  have pointer := (@putTable_header (putHeader mem clBase ctBase write) ctBase lba count buf write (clBase + 8) 8
    (by omega)).trans (putHeader_table mem write table)
  have entries : (if write then 0x50041 else 0x50001) / 2 ^ 16 = 5 := by cases write <;> rfl
  simp only [decode, flags, pointer, decodeFis_putTable _ _ inside few, entries]
  simp only [range_succ, range_zero, nil_append, cons_append, map_cons, map_nil,
    Nat.add_assoc, Nat.mul_zero, Nat.add_zero]
  rw [decodePrd_first _ _ narrow some few, decodePrd_later _ _ (by omega) (by omega),
    decodePrd_later _ _ (by omega) (by omega), decodePrd_later _ _ (by omega) (by omega),
    decodePrd_later _ _ (by omega) (by omega)]
  cases write <;> rfl

end Memory

def Waited (before after : State) : Prop := ∃ reads, after = { before with reads := reads }

theorem Waited.trans {first second third : State} (left : Waited first second) (right : Waited second third) :
    Waited first third := by
  obtain ⟨_, rfl⟩ := left
  obtain ⟨reads, rfl⟩ := right
  exact ⟨reads, rfl⟩

theorem rr_waited (state : State) : Waited state (rr state).2 := ⟨state.reads + 1, rfl⟩

theorem waitIdle_waited (count : Nat) (state : State) : Waited state (waitIdle count state).2 := by
  induction count generalizing state with
  | zero => exact ⟨state.reads, rfl⟩
  | succ count ih =>
    have unfolded : waitIdle (count + 1) state = (if (rr state).1 &&& 0x88 = 0 then pure () else waitIdle count)
      (rr state).2 := rfl
    rw [unfolded]
    split
    · exact rr_waited state
    · exact (rr_waited state).trans (ih _)

theorem waitDone_waited (count : Nat) (state : State) : Waited state (waitDone count state).2 := by
  induction count generalizing state with
  | zero => exact ⟨state.reads, rfl⟩
  | succ count ih =>
    have unfolded : waitDone (count + 1) state = (if (rr state).1 &&& 1 = 0 then pure true else do
      let is ← rr
      if is &&& (1 <<< 30) ≠ 0 then pure false else waitDone count) (rr state).2 := rfl
    rw [unfolded]
    split
    · exact rr_waited state
    · have again : (do
          let is ← rr
          if is &&& (1 <<< 30) ≠ 0 then pure false else waitDone count) (rr state).2 =
        (if (rr (rr state).2).1 &&& (1 <<< 30) ≠ 0 then pure false else waitDone count) (rr (rr state).2).2 := rfl
      rw [again]
      split
      · exact (rr_waited state).trans (rr_waited _)
      · exact ((rr_waited state).trans (rr_waited _)).trans (ih _)

theorem ahciRw_eq (lba count buf : Nat) (write : Bool) (state : State) : ahciRw lba count buf write state =
    (if state.present = false ∨ count = 0 ∨ 8 < count then pure false else runCommand lba count buf write) state := rfl

theorem runCommand_issues (lba count buf : Nat) (write : Bool) (state : State) :
    (runCommand lba count buf write state).2.issued = state.issued ++
      [decode (putTable (putHeader state.mem state.clBase state.ctBase write) state.ctBase lba count buf write)
        state.clBase] := by
  obtain ⟨reads, idle⟩ := waitIdle_waited 1000000 state
  let mem := putTable (putHeader state.mem state.clBase state.ctBase write) state.ctBase lba count buf write
  let built : State := { state with
    reads := reads, mem := mem, issued := state.issued ++ [decode mem state.clBase] }
  have ran : runCommand lba count buf write state = (if (waitDone 2000000 built).1 then (do
      let ci ← rr
      pure (decide (ci &&& 1 = 0))) else pure false) (waitDone 2000000 built).2 := by
    have waited : waitIdle 1000000 state = ((), { state with reads := reads }) := Prod.ext rfl idle
    simp only [runCommand, bind, StateT.bind]
    rw [waited]
    rfl
  obtain ⟨later, waited⟩ := waitDone_waited 2000000 built
  rw [ran, waited]
  split <;> rfl

/-- A call gives the controller exactly the command wanted, if and only if it gives it none. -/
theorem ahci_command_exact_iff {lba count buf : Nat} (write : Bool) (inside : lba < 2 ^ 48)
    (some : 0 < count) (few : count ≤ 8) (narrow : buf < 2 ^ 64) (apart : state.ctBase = state.clBase + 2048)
    (table : state.ctBase < 2 ^ 64) :
    (ahciRw lba count buf write state).2.issued <+: state.issued ++ [wanted lba count buf write] ↔
      state.present = false := by
  rw [ahciRw_eq]
  constructor
  · intro exact
    by_contra there
    have accepted : ¬(state.present = false ∨ count = 0 ∨ 8 < count) := fun refused => by
      rcases refused with absent | zero | many
      · exact there absent
      · omega
      · omega
    rw [if_neg accepted, runCommand_issues, decode_given _ _ (by omega) table inside narrow some few] at exact
    have same : given lba count buf write = wanted lba count buf write := by
      simpa using (prefix_append_right_inj _).mp exact
    cases congrArg Command.fisLength same
  · intro absent
    rw [if_pos (.inl absent)]
    exact prefix_append _ _

def idlePort (present : Bool) : State where
  present := present
  clBase := 0x10000
  ctBase := 0x10800
  mem := fun _ => 0
  shows := fun _ => 0
  reads := 0
  issued := []

theorem ahci_command_exact_without_port :
    (ahciRw 5 1 0x20000 false (idlePort false)).2.issued <+: [wanted 5 1 0x20000 false] :=
  (@ahci_command_exact_iff (idlePort false) 5 1 0x20000 false (by decide) (by decide) (by decide) (by decide) rfl
    (by decide)).mpr rfl

/-- A read of sector 5 to 0x20000: the FIS has one dword, and the table five entries. -/
theorem read_command_garbled :
    (ahciRw 5 1 0x20000 false (idlePort true)).1 = true ∧
      (ahciRw 5 1 0x20000 false (idlePort true)).2.issued =
        [⟨1, false, ⟨0x27, true, 0x25, 5, 0x40, 1⟩, [⟨0x20000, 512⟩, ⟨0, 1⟩, ⟨0, 1⟩, ⟨0, 1⟩, ⟨0, 1⟩]⟩] ∧
      wanted 5 1 0x20000 false = ⟨5, false, ⟨0x27, true, 0x25, 5, 0x40, 1⟩, [⟨0x20000, 512⟩]⟩ := by
  decide +kernel

end GWKernel.Ahci
