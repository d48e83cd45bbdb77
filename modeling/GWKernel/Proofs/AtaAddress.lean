import GWKernel.Ata

/-! Which sectors the ATA driver transfers: it drops four bits of a 32-bit LBA without looking at
them. -/

namespace GWKernel.Ata
open Lib

variable {state after : State}

/-- Nothing has happened but reads of a status port. -/
def Polled (before after : State) : Prop := ∃ polls, after = { before with polls := polls }

theorem Polled.refl (state : State) : Polled state state := ⟨state.polls, rfl⟩

theorem Polled.trans {first second third : State} (left : Polled first second) (right : Polled second third) :
    Polled first third := by
  obtain ⟨_, rfl⟩ := left
  obtain ⟨polls, rfl⟩ := right
  exact ⟨polls, rfl⟩

theorem inbStatus_polled (state : State) : Polled state (inbStatus state).2 := ⟨state.polls + 1, rfl⟩

theorem pollBsy_polled (count : Nat) (state : State) : Polled state (pollBsy count state).2 := by
  induction count generalizing state with
  | zero => exact Polled.refl state
  | succ count ih =>
    have unfolded : pollBsy (count + 1) state = (if (inbStatus state).1 &&& ataSrBsy = 0 then pure true
      else pollBsy count) (inbStatus state).2 := rfl
    rw [unfolded]
    split
    · exact inbStatus_polled state
    · exact (inbStatus_polled state).trans (ih _)

theorem pollDrq_polled (count : Nat) (state : State) : Polled state (pollDrq count state).2 := by
  induction count generalizing state with
  | zero => exact Polled.refl state
  | succ count ih =>
    have unfolded : pollDrq (count + 1) state = (if (inbStatus state).1 &&& (ataSrErr ||| ataSrDf) ≠ 0 then pure false
      else if (inbStatus state).1 &&& ataSrDrq ≠ 0 then pure true else pollDrq count) (inbStatus state).2 := rfl
    rw [unfolded]
    split
    · exact inbStatus_polled state
    · split
      · exact inbStatus_polled state
      · exact (inbStatus_polled state).trans (ih _)

theorem settle_polled (state : State) : Polled state (settle state).2 :=
  (pollBsy_polled pollLimit state).trans (inbStatus_polled _)

def registers (lba : Nat) : TaskFile where
  drive := (0xE0 ||| (lba >>> 24 &&& 0x0F)) % 256
  seccount := 1
  lbaLo := lba % 256
  lbaMid := (lba >>> 8) % 256
  lbaHi := (lba >>> 16) % 256

theorem registers_sector (lba : Nat) : (registers lba).sector = some (lba % 2 ^ 28) := by
  have nibble : lba >>> 24 &&& 0x0F = lba / 2 ^ 24 % 2 ^ 4 := by
    rw [Nat.shiftRight_eq_div_pow]
    exact Nat.and_two_pow_sub_one_eq_mod _ 4
  have joined : 0xE0 ||| (lba >>> 24 &&& 0x0F) = 2 ^ 5 * 7 + lba / 2 ^ 24 % 2 ^ 4 := by
    rw [nibble]
    exact (Nat.two_pow_add_eq_or_of_lt (i := 5) (by omega) 7).symm
  unfold TaskFile.sector registers
  simp only [joined]
  simp only [Nat.shiftRight_eq_div_pow]
  rw [if_pos ⟨by omega, by omega, trivial⟩, Option.some.injEq]
  omega

structure Asked (before : State) (command lba : Nat) (after : State) : Prop where
  command : after.command = command
  sector : after.sector = some (lba % 2 ^ 28)
  moved : after.moved = 0
  transfers : after.transfers = before.transfers

theorem request_asked {lba command : Nat} (ran : request lba command state = (true, after)) :
    Asked state command lba after := by
  have unfolded : request lba command state = (if (waitBsyClear state).1 then (do
      setupLba lba
      outbCmd command
      ioWait
      waitDrq) else pure false) (waitBsyClear state).2 := rfl
  rw [unfolded] at ran
  obtain ⟨polls, idle⟩ := pollBsy_polled pollLimit state
  have idle : (waitBsyClear state).2 = { state with polls := polls } := idle
  split at ran
  · rw [idle] at ran
    -- What the drive holds when it is polled for the data phase.
    obtain ⟨more, waited⟩ := pollDrq_polled pollLimit
      { state with
        regs := registers lba, command := command, sector := (registers lba).sector, moved := 0, polls := polls + 4 }
    have final : after = _ := (congrArg Prod.snd ran).symm.trans waited
    subst final
    exact ⟨rfl, registers_sector lba, rfl, rfl⟩
  · cases ran

theorem readWords_passes {count : Nat} (positive : 0 < count) (left : state.moved + count = 256) :
    (readWords count state).2.transfers = state.transfers ++ [(state.command, state.sector)] := by
  induction count generalizing state with
  | zero => omega
  | succ count ih =>
    have unfolded : (readWords (count + 1) state).2 = (readWords count state.pass).2 := rfl
    rw [unfolded]
    by_cases last : count = 0
    · subst last
      have full : state.moved + 1 = 256 := left
      simp [readWords, State.pass, full, pure, StateT.pure]
    · have partway : state.moved + 1 ≠ 256 := by omega
      rw [ih (by omega) (by simp only [State.pass]; omega)]
      simp [State.pass, partway]

theorem writeWords_passes {words : List Nat} (nonempty : words ≠ []) (left : state.moved + words.length = 256) :
    (writeWords words state).2.transfers = state.transfers ++ [(state.command, state.sector)] := by
  induction words generalizing state with
  | nil => exact absurd rfl nonempty
  | cons word rest ih =>
    have unfolded : (writeWords (word :: rest) state).2 = (writeWords rest (outw word state).2).2 := rfl
    rw [unfolded]
    by_cases last : rest = []
    · subst last
      have full : state.moved + 1 = 256 := left
      simp [writeWords, outw, State.pass, full, modify, modifyGet, MonadStateOf.modifyGet, StateT.modifyGet, pure, StateT.pure]
    · have long : 0 < rest.length := List.length_pos_iff.mpr last
      have partway : state.moved + 1 ≠ 256 := by
        simp only [List.length_cons] at left
        omega
      have passed : (outw word state).2.moved = state.moved + 1 := rfl
      rw [ih last (by rw [passed]; simp only [List.length_cons] at left; omega)]
      simp [outw, State.pass, partway, modify, modifyGet, MonadStateOf.modifyGet, StateT.modifyGet, pure]

def transferred (command lba : Nat) (ns : List Nat) : List (Nat × Option Nat) :=
  ns.map fun n => (command, some (u32 (lba + n) % 2 ^ 28))

theorem readSectors_transfers {lba : Nat} {ns words : List Nat} (ran : readSectors lba ns state = (some words, after)) :
    after.transfers = state.transfers ++ transferred ataCmdReadPio lba ns := by
  induction ns generalizing state words with
  | nil =>
    cases ran
    simp [transferred]
  | cons n rest ih =>
    rw [readSectors] at ran
    simp only [bind, StateT.bind] at ran
    generalize asked : request (u32 (lba + n)) ataCmdReadPio state = outcome at ran
    obtain ⟨granted, ok⟩ := outcome
    cases granted with
    | false => cases ran
    | true =>
      have facts := request_asked asked
      simp only [if_true, bind, StateT.bind] at ran
      have passed := @readWords_passes ok 256 (by omega) (by rw [facts.moved])
      generalize readWords 256 ok = outcome at ran passed
      obtain ⟨words, between⟩ := outcome
      cases more : readSectors lba rest between with
      | mk result final =>
        simp only [more] at ran
        cases result with
        | none => cases ran
        | some rest =>
          cases ran
          rw [ih more, passed, facts.transfers, facts.command, facts.sector]
          simp [transferred]

theorem writeSectors_transfers {lba : Nat} {buf : Nat → Nat} {ns : List Nat}
    (ran : writeSectors lba buf ns state = (true, after)) :
    after.transfers = state.transfers ++ transferred ataCmdWritePio lba ns := by
  induction ns generalizing state with
  | nil =>
    cases ran
    simp [transferred]
  | cons n rest ih =>
    have unfolded : writeSectors lba buf (n :: rest) state =
      (if (request (u32 (lba + n)) ataCmdWritePio state).1 then (do
        writeWords ((List.range' (256 * n) 256).map buf)
        if ← settle then writeSectors lba buf rest else pure false) else pure false)
          (request (u32 (lba + n)) ataCmdWritePio state).2 := rfl
    rw [unfolded] at ran
    split at ran
    next granted =>
      obtain ⟨ok, asked⟩ : ∃ between, request (u32 (lba + n)) ataCmdWritePio state = (true, between) :=
        ⟨_, Prod.ext granted rfl⟩
      have facts := request_asked asked
      rw [asked] at ran
      have passed := @writeWords_passes ok ((List.range' (256 * n) 256).map buf) (by simp)
        (by rw [facts.moved, List.length_map, List.length_range'])
      simp only [bind, StateT.bind] at ran
      generalize writeWords ((List.range' (256 * n) 256).map buf) ok = outcome at ran passed
      obtain ⟨_, between⟩ := outcome
      dsimp only at ran
      obtain ⟨polls, still⟩ := settle_polled between
      generalize settle between = settled at ran still
      obtain ⟨fine, final⟩ := settled
      obtain rfl : final = { between with polls := polls } := still
      cases fine with
      | false => cases ran
      | true =>
        rw [ih ran]
        simp only
        rw [passed, facts.transfers, facts.command, facts.sector]
        simp [transferred]
    next => cases ran

theorem transferred_eq_iff {command lba count : Nat} (positive : 0 < count) :
    transferred command lba (List.range count) = (List.range count).map (fun n => (command, some (lba + n))) ↔
      lba + count ≤ 2 ^ 28 := by
  unfold transferred
  rw [List.map_inj_left]
  constructor
  · intro same
    have last := same (count - 1) (List.mem_range.mpr (by omega))
    simp only [Prod.mk.injEq, true_and, Option.some.injEq, u32] at last
    omega
  · intro small n member
    have below := List.mem_range.mp member
    simp only [Prod.mk.injEq, true_and, Option.some.injEq, u32]
    omega

/-- Both functions transfer exactly the sectors asked for, if and only if all have 28-bit
addresses. -/
theorem ata_transfers_exact_iff (lba count : Nat) (buf : Nat → Nat) (state : State) :
    (∀ words after, ataReadSectors lba count state = (some words, after) →
      (after.transfers = state.transfers ++ (List.range count).map (fun n => (ataCmdReadPio, some (lba + n))) ↔
        lba + count ≤ 2 ^ 28)) ∧
    ∀ after, ataWriteSectors lba count buf state = (true, after) →
      (after.transfers = state.transfers ++ (List.range count).map (fun n => (ataCmdWritePio, some (lba + n))) ↔
        lba + count ≤ 2 ^ 28) := by
  have positive (accepted : ¬(!state.present || count = 0) = true) : 0 < count := by
    simp only [Bool.or_eq_true, decide_eq_true_eq, not_or] at accepted
    omega
  constructor
  · intro words after ran
    have unfolded : ataReadSectors lba count state =
      (if !state.present || count = 0 then pure none else readSectors lba (List.range count)) state := rfl
    rw [unfolded] at ran
    split at ran
    next => cases ran
    next accepted =>
      rw [readSectors_transfers ran, List.append_cancel_left_eq]
      exact transferred_eq_iff (positive accepted)
  · intro after ran
    have unfolded : ataWriteSectors lba count buf state =
      (if !state.present || count = 0 then pure false else writeSectors lba buf (List.range count)) state := rfl
    rw [unfolded] at ran
    split at ran
    next => cases ran
    next accepted =>
      rw [writeSectors_transfers ran, List.append_cancel_left_eq]
      exact transferred_eq_iff (positive accepted)

def readyDrive : State where
  present := true
  regs := ⟨0, 0, 0, 0, 0⟩
  command := 0
  sector := none
  moved := 0
  status := fun _ => 0x48
  polls := 0
  disk := fun _ _ => 0
  transfers := []

theorem ata_transfers_exact_first : ∃ after, ataWriteSectors 5 1 (fun _ => 0) readyDrive = (true, after) ∧
    after.transfers = [(ataCmdWritePio, some 5)] := by
  have ran : (ataWriteSectors 5 1 (fun _ => 0) readyDrive).1 = true := by decide +kernel
  generalize outcome : ataWriteSectors 5 1 (fun _ => 0) readyDrive = result at ran ⊢
  obtain ⟨ok, after⟩ := result
  obtain rfl : ok = true := ran
  exact ⟨after, rfl, ((ata_transfers_exact_iff 5 1 (fun _ => 0) readyDrive).2 after outcome).mpr (by decide)⟩

/-- A write to sector 2^28, which lies at 128 GiB, goes to sector 0. -/
theorem write_redirected_to_boot_sector :
    ∃ after, ataWriteSectors 0x10000000 1 (fun _ => 0) readyDrive = (true, after) ∧
      after.transfers = [(ataCmdWritePio, some 0)] := by
  have ran : (ataWriteSectors 0x10000000 1 (fun _ => 0) readyDrive).1 = true ∧
      (ataWriteSectors 0x10000000 1 (fun _ => 0) readyDrive).2.transfers = [(ataCmdWritePio, some 0)] := by
    decide +kernel
  generalize ataWriteSectors 0x10000000 1 (fun _ => 0) readyDrive = outcome at ran ⊢
  obtain ⟨ok, after⟩ := outcome
  obtain ⟨rfl, redirected⟩ := ran
  exact ⟨after, rfl, redirected⟩

end GWKernel.Ata
