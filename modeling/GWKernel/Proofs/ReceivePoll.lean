import GWKernel.Proofs.ReceiveRing

/-! `ne2k_poll` with frames arriving between any two of its port accesses: every call
either finds the ring empty or takes the oldest frame out of it. -/

namespace GWKernel.Ne2k
open Lib Nic List

/-- The card only adds frames, and leaves alone what the driver has set up. -/
structure Rely (nic : Nic) (accepted : List (List UInt8)) (after : Nic) (known : List (List UInt8)) : Prop where
  grows : accepted <+: known
  cmd : after.cmd = nic.cmd
  rsar : after.rsar = nic.rsar
  keeps : ∀ taken, Holding nic accepted taken → Holding after known taken

/-- At least the frames of `base` have been accepted, `taken` have been read, and how the register
page and the remote address are set. -/
structure Held (base : List (List UInt8)) (taken page rsar : Nat) (nic : Nic) (accepted : List (List UInt8)) : Prop where
  holding : Holding nic accepted taken
  since : base <+: accepted
  reach : taken ≤ base.length
  page : nic.cmd / 64 = page
  rsar : nic.rsar = rsar

section
variable {base accepted : List (List UInt8)} {taken page rsar : Nat} {nic : Nic}

theorem Holding.registers (holding : Holding nic accepted taken) (cmd isr rsar : Nat) (page0 : Nat → Nat) :
    Holding { nic with cmd, isr, rsar, page0 } accepted taken :=
  ⟨holding.start, holding.stop, holding.sizes, holding.behind, holding.room, holding.bnry, holding.curr, holding.unread⟩

theorem Holding.following (holding : Holding nic accepted taken) (number : Nat) :
    nic.following (cellAt number) = cellAt (number + 1) := by
  have first : nic.pstart = 70 := holding.start
  have last : nic.pstop = 128 := holding.stop
  rw [cellAt_eq, cellAt_eq]
  unfold Nic.following
  split <;> omega

variable (held : Held base taken page rsar nic accepted)
include held

theorem Held.rely {after : Nic} {known : List (List UInt8)} (moved : Rely nic accepted after known) :
    Held base taken page rsar after known :=
  ⟨moved.keeps taken held.holding, held.since.trans moved.grows, held.reach, moved.cmd ▸ held.page, moved.rsar.trans held.rsar⟩

theorem Held.rebase : Held accepted taken page rsar nic accepted :=
  ⟨held.holding, prefix_rfl, held.holding.behind, held.page, held.rsar⟩

theorem Held.position : pagesBefore accepted taken = pagesBefore base taken := by
  obtain ⟨more, rfl⟩ := held.since
  exact pagesBefore_append more held.reach

theorem Held.oldest {frame : List UInt8} (oldest : base[taken]? = some frame) : accepted[taken]? = some frame := by
  obtain ⟨more, rfl⟩ := held.since
  rw [getElem?_append_left (List.getElem?_eq_some_iff.mp oldest).1]
  exact oldest

theorem Held.stored {frame : List UInt8} (oldest : base[taken]? = some frame) :
    Stored nic.ram (1 + pagesBefore base taken) frame := by
  rw [← held.position]
  exact held.holding.unread taken frame (Nat.le_refl _) (held.oldest oldest)

theorem Held.outbCmd (value : Nat) : Held base taken (value / 64) rsar (nic.outb neCmd value) accepted := by
  have set : nic.outb neCmd value = { nic with cmd := value } := by simp [Nic.outb]
  rw [set]
  exact ⟨held.holding.registers _ _ _ _, held.since, held.reach, rfl, held.rsar⟩

end

section
variable {base accepted : List (List UInt8)} {taken rsar : Nat} {nic : Nic} (held : Held base taken 0 rsar nic accepted)
include held

theorem Held.outbRbcr0 (value : Nat) : Held base taken 0 rsar (nic.outb neRbcr0 value) accepted := by
  have set : nic.outb neRbcr0 value =
      { nic with page0 := fun other => if other = neRbcr0 then value else nic.page0 other } := by
    simp [Nic.outb, held.page, neRbcr0, neCmd, nePstart, nePstop, neBnry, neIsr, neRsar0, neRsar1, ne2kBase]
  rw [set]
  exact ⟨held.holding.registers _ _ _ _, held.since, held.reach, held.page, held.rsar⟩

theorem Held.outbRbcr1 (value : Nat) : Held base taken 0 rsar (nic.outb neRbcr1 value) accepted := by
  have set : nic.outb neRbcr1 value =
      { nic with page0 := fun other => if other = neRbcr1 then value else nic.page0 other } := by
    simp [Nic.outb, held.page, neRbcr1, neCmd, nePstart, nePstop, neBnry, neIsr, neRsar0, neRsar1, ne2kBase]
  rw [set]
  exact ⟨held.holding.registers _ _ _ _, held.since, held.reach, held.page, held.rsar⟩

theorem Held.outbIsr (value : Nat) : Held base taken 0 rsar (nic.outb neIsr value) accepted := by
  have set : nic.outb neIsr value = { nic with isr := nic.isr &&& (255 ^^^ value) } := by
    simp [Nic.outb, held.page, neCmd, nePstart, nePstop, neBnry, neIsr, ne2kBase]
  rw [set]
  exact ⟨held.holding.registers _ _ _ _, held.since, held.reach, held.page, held.rsar⟩

theorem Held.outbRsar0 (value : Nat) :
    Held base taken 0 (rsar / 256 * 256 + value) (nic.outb neRsar0 value) accepted := by
  have set : nic.outb neRsar0 value = { nic with rsar := nic.rsar / 256 * 256 + value } := by
    simp [Nic.outb, held.page, neCmd, nePstart, nePstop, neBnry, neIsr, neRsar0, ne2kBase]
  rw [set]
  exact ⟨held.holding.registers _ _ _ _, held.since, held.reach, held.page, by rw [held.rsar]⟩

theorem Held.outbRsar1 (value : Nat) :
    Held base taken 0 (value * 256 + rsar % 256) (nic.outb neRsar1 value) accepted := by
  have set : nic.outb neRsar1 value = { nic with rsar := value * 256 + nic.rsar % 256 } := by
    simp [Nic.outb, held.page, neCmd, nePstart, nePstop, neBnry, neIsr, neRsar0, neRsar1, ne2kBase]
  rw [set]
  exact ⟨held.holding.registers _ _ _ _, held.since, held.reach, held.page, by rw [held.rsar]⟩

theorem Held.outbBnry {frame : List UInt8} (oldest : base[taken]? = some frame) :
    Held base (taken + 1) 0 rsar (nic.outb neBnry (pageAt (pagesBefore base (taken + 1)))) accepted := by
  have more := (List.getElem?_eq_some_iff.mp oldest).1
  have place : pagesBefore accepted (taken + 1) = pagesBefore base (taken + 1) := by
    rw [pagesBefore_succ (held.oldest oldest), pagesBefore_succ oldest, held.position]
  have set : nic.outb neBnry (pageAt (pagesBefore base (taken + 1))) =
      { nic with bnry := pageAt (pagesBefore accepted (taken + 1)) } := by
    simp [Nic.outb, held.page, place, neCmd, nePstart, nePstop, neBnry, ne2kBase]
  rw [set]
  exact ⟨held.holding.release (held.oldest oldest), held.since, more, held.page, held.rsar⟩

end

section
variable {safe : Nic → List (List UInt8) → Prop} {base accepted : List (List UInt8)} {taken page rsar : Nat} {nic : Nic}
  (guards : ∀ {nic accepted taken}, base <+: accepted → Holding nic accepted taken → safe nic accepted)
include guards

section
variable (held : Held base taken page rsar nic accepted)
include held

theorem Held.atomic {α : Type} {act : Nic → α × Nic} {post : α → Nic → List (List UInt8) → Prop}
    (next : ∀ seen known, Held base taken page rsar seen known → post (act seen).1 (act seen).2 known) :
    Holds safe Rely post (Prog.atomic act) nic accepted :=
  Holds.atomic fun seen known moved =>
    ⟨guards (held.rely moved).since (held.rely moved).holding, next seen known (held.rely moved)⟩

theorem page0_holds :
    Holds safe Rely (fun _ after known => Held base taken 0 rsar after known) page0 nic accepted := by
  have read : Holds safe Rely (fun _ after known => Held base taken page rsar after known) (inb neCmd) nic accepted :=
    held.atomic guards fun _ _ held => held
  refine read.bind fun cmd _ _ held => held.atomic guards fun seen known held => ?_
  have first : (cmd &&& 0x3F) % 256 / 64 = 0 := by
    rw [Nat.and_two_pow_sub_one_eq_mod cmd 6]
    omega
  exact first ▸ held.outbCmd ((cmd &&& 0x3F) % 256)

theorem page1_holds :
    Holds safe Rely (fun _ after known => Held base taken 1 rsar after known) page1 nic accepted := by
  have read : Holds safe Rely (fun _ after known => Held base taken page rsar after known) (inb neCmd) nic accepted :=
    held.atomic guards fun _ _ held => held
  refine read.bind fun cmd _ _ held => held.atomic guards fun seen known held => ?_
  have second : ((cmd &&& 0x3F) ||| 0x40) % 256 / 64 = 1 := by
    rw [Nat.and_two_pow_sub_one_eq_mod cmd 6, Nat.or_comm, ← Nat.two_pow_add_eq_or_of_lt (i := 6) (Nat.mod_lt _ (by decide)) 1]
    omega
  exact second ▸ held.outbCmd (((cmd &&& 0x3F) ||| 0x40) % 256)

theorem dmaDone_holds :
    Holds safe Rely (fun _ after known => Held base taken 0 rsar after known) dmaDone nic accepted :=
  held.atomic guards fun _ _ held => held.outbCmd 0x22

end

theorem startRead_holds {count offset start : Nat} (small : offset < 256) (inside : start < 256)
    (held : Held base taken 0 rsar nic accepted) :
    Holds safe Rely (fun _ after known => Held base taken 0 (start * 256 + offset) after known)
      (startRead count offset start) nic accepted := by
  have low : Holds safe Rely (fun _ after known => Held base taken 0 rsar after known)
      (outb neRbcr0 (count % 256)) nic accepted := held.atomic guards fun _ _ held => held.outbRbcr0 _
  refine low.bind fun _ between known held => ?_
  have high : Holds safe Rely (fun _ after known => Held base taken 0 rsar after known)
      (outb neRbcr1 (count / 256)) between known := held.atomic guards fun _ _ held => held.outbRbcr1 _
  refine high.bind fun _ between known held => ?_
  have first : Holds safe Rely (fun _ after known => Held base taken 0 (rsar / 256 * 256 + offset) after known)
      (outb neRsar0 offset) between known :=
    held.atomic guards fun _ _ held => by
      rw [Nat.mod_eq_of_lt small]
      exact held.outbRsar0 offset
  refine first.bind fun _ between known held => ?_
  have second : Holds safe Rely (fun _ after known => Held base taken 0 (start * 256 + offset) after known)
      (outb neRsar1 start) between known :=
    held.atomic guards fun _ _ held => by
      have address : start * 256 + (rsar / 256 * 256 + offset) % 256 = start * 256 + offset := by omega
      rw [Nat.mod_eq_of_lt inside, ← address]
      exact held.outbRsar1 start
  exact second.bind fun _ between known held => held.atomic guards fun _ _ held => held.outbCmd 0x0A

theorem inw_holds {number : Nat} (held : Held base taken page (cellAt number) nic accepted) :
    Holds safe Rely
      (fun word after known => Held base taken page (cellAt (number + 2)) after known ∧
        word = (after.ram (cellAt number)).toNat + 256 * (after.ram (cellAt (number + 1))).toNat)
      inw nic accepted := by
  refine held.atomic guards fun seen known held => ⟨?_, ?_⟩
  · refine ⟨held.holding.registers _ _ _ _, held.since, held.reach, held.page, ?_⟩
    simp only [Nic.inw, held.rsar, held.holding.following]
  · simp only [Nic.inw, held.rsar, held.holding.following]

variable {frame : List UInt8}

section
variable (oldest : base[taken]? = some frame)
include oldest

theorem readHeader_holds (held : Held base taken 0 rsar nic accepted) :
    Holds safe Rely
      (fun words after known => (∃ rsar, Held base taken 0 rsar after known) ∧ words.1 % 256 % 2 = 1 ∧
        words.1 / 256 = pageAt (1 + pagesBefore base taken + pageCount frame) ∧ words.2 = frame.length + 4)
      (readHeader (pageAt (1 + pagesBefore base taken))) nic accepted := by
  refine (startRead_holds guards (by decide) (pageAt_lt _) held).bind fun _ between known held => ?_
  rw [pageAt_offset (by decide), Nat.add_zero] at held
  refine (inw_holds guards held).bind fun h0 middle known ⟨held, first⟩ => ?_
  have small := (middle.ram (cellAt ((1 + pagesBefore base taken) * 256))).toNat_lt
  have next := (held.stored oldest).next
  have status := (held.stored oldest).status
  refine (inw_holds guards held).bind fun h1 between known ⟨held, second⟩ => ?_
  have low := (held.stored oldest).low
  have high := (held.stored oldest).high
  refine (dmaDone_holds guards held).bind fun _ _ _ held => Holds.pure ⟨⟨_, held⟩, ?_, ?_, ?_⟩
  · simp only
    omega
  · simp only
    omega
  · have last : (1 + pagesBefore base taken) * 256 + 2 + 1 = (1 + pagesBefore base taken) * 256 + 3 := by omega
    rw [last, low, high] at second
    simp only [second]
    omega

theorem readWords_holds (count : Nat) {offset : Nat}
    (held : Held base taken 0 (cellAt ((1 + pagesBefore base taken) * 256 + 4 + offset)) nic accepted) :
    Holds safe Rely
      (fun out after known => (∃ rsar, Held base taken 0 rsar after known) ∧
        ∀ index byte, index < 2 * count → frame[offset + index]? = some byte → out[index]? = some byte)
      (readWords count) nic accepted := by
  induction count generalizing nic accepted offset with
  | zero => exact Holds.pure ⟨⟨_, held⟩, fun index _ inside => absurd inside (Nat.not_lt_zero _)⟩
  | succ count ih =>
    refine (inw_holds guards held).bind fun word between known ⟨held, is⟩ => ?_
    have bytes := (held.stored oldest).bytes
    have low := (between.ram (cellAt ((1 + pagesBefore base taken) * 256 + 4 + offset))).toNat_lt
    have high := (between.ram (cellAt ((1 + pagesBefore base taken) * 256 + 4 + offset + 1))).toNat_lt
    rw [Nat.add_assoc _ offset 2] at held
    refine (ih held).bind fun rest _ _ ⟨held, found⟩ => Holds.pure ⟨held, ?_⟩
    intro index byte inside there
    match index with
    | 0 =>
      have first := bytes offset byte there
      rw [first] at is
      refine congrArg some (UInt8.toNat_inj.mp ?_)
      rw [UInt8.toNat_ofNat']
      rw [first] at low
      omega
    | 1 =>
      have second := bytes (offset + 1) byte there
      rw [← Nat.add_assoc] at second
      rw [second] at is high
      refine congrArg some (UInt8.toNat_inj.mp ?_)
      rw [UInt8.toNat_ofNat']
      omega
    | index + 2 =>
      refine found index byte (by omega) ?_
      rw [show offset + 2 + index = offset + (index + 2) by omega]
      exact there

theorem readFrame_holds (held : Held base taken 0 rsar nic accepted) :
    Holds safe Rely
      (fun out after known => (∃ rsar, Held base (taken + 1) 0 rsar after known) ∧ out.take frame.length = frame)
      (readFrame (pageAt (1 + pagesBefore base taken)) frame.length
        (pageAt (1 + pagesBefore base taken + pageCount frame))) nic accepted := by
  refine (startRead_holds guards (by decide) (pageAt_lt _) held).bind fun _ between known held => ?_
  rw [pageAt_offset (by decide), ← Nat.add_zero ((1 + pagesBefore base taken) * 256 + 4)] at held
  refine (readWords_holds guards oldest _ held).bind fun out between known ⟨⟨rsar, held⟩, read⟩ => ?_
  refine (dmaDone_holds guards held).bind fun _ between known held => ?_
  have released : Holds safe Rely (fun _ after known => Held base (taken + 1) 0 rsar after known)
      (outb neBnry (pageBefore (pageAt (1 + pagesBefore base taken + pageCount frame)))) between known := by
    refine held.atomic guards fun _ _ held => ?_
    have page : pageBefore (pageAt (1 + pagesBefore base taken + pageCount frame)) =
        pageAt (pagesBefore base (taken + 1)) := by
      rw [pagesBefore_succ oldest, Nat.add_assoc, Nat.add_comm 1, pageBefore_pageAt]
    rw [page, Nat.mod_eq_of_lt (pageAt_lt _)]
    exact held.outbBnry oldest
  refine released.bind fun _ between known held => ?_
  have cleared : Holds safe Rely (fun _ after known => Held base (taken + 1) 0 rsar after known)
      (outb neIsr 0x01) between known := held.atomic guards fun _ _ held => held.outbIsr _
  refine cleared.bind fun _ _ _ held => Holds.pure ⟨⟨rsar, held⟩, ?_⟩
  refine ext_getElem? fun index => ?_
  by_cases inside : index < frame.length
  · rw [getElem?_take_of_lt inside, getElem?_eq_getElem inside]
    refine read index _ (by omega) ?_
    rw [Nat.zero_add, getElem?_eq_getElem inside]
  · rw [getElem?_take_eq_none (by omega), getElem?_eq_none (by omega)]

end

end

abbrev Result := Return (List (List UInt8)) (Int × List UInt8)

def received (result : Result) : Option (List UInt8) :=
  if 0 < result.value.1 then some (result.value.2.take result.value.1.toNat) else none

def frames (returned : List Result) : List (List UInt8) := returned.filterMap received

/-- The call returns 0 only if the frames read were all that had been accepted, and something else
only if there was another. -/
structure Timely (read : Nat) (result : Result) : Prop where
  valid : 0 ≤ result.value.1
  within : read ≤ result.begun.length
  empty : result.value.1 = 0 → result.begun.length ≤ read
  more : result.value.1 ≠ 0 → read < result.ended.length

structure Logged (returned : List Result) (accepted : List (List UInt8)) : Prop where
  order : frames returned <+: accepted
  timely : ∀ index result, returned[index]? = some result → Timely (frames (returned.take index)).length result

variable {returned : List Result} {accepted known : List (List UInt8)} {nic : Nic}

theorem Logged.grows (logged : Logged returned accepted) (grows : accepted <+: known) : Logged returned known :=
  ⟨logged.order.trans grows, logged.timely⟩

theorem Logged.append {result : Result} (logged : Logged returned accepted)
    (order : frames (returned ++ [result]) <+: known) (timely : Timely (frames returned).length result) :
    Logged (returned ++ [result]) known := by
  refine ⟨order, fun index other is => ?_⟩
  by_cases last : index = returned.length
  · subst last
    obtain rfl : result = other := by simpa using is
    rw [take_left' rfl]
    exact timely
  · have inside : index < returned.length := by
      have bound := (List.getElem?_eq_some_iff.mp is).1
      rw [length_append, length_singleton] at bound
      omega
    rw [getElem?_append_left inside] at is
    rw [take_append_of_le_length (by omega)]
    exact logged.timely index other is

structure Resting (returned : List Result) (nic : Nic) (accepted : List (List UInt8)) : Prop where
  holding : Holding nic accepted (frames returned).length
  logged : Logged returned accepted

structure Guarded (returned : List Result) (nic : Nic) (accepted : List (List UInt8)) : Prop where
  holding : ∃ taken, Holding nic accepted taken
  logged : Logged returned accepted

private theorem take_holds {between : Nic} {base later : List (List UInt8)} {maxlen rsar : Nat} {frame : List UInt8}
    (large : 1514 ≤ maxlen) (resting : Resting returned nic accepted)
    (guards : ∀ {nic known taken}, base <+: known → Holding nic known taken → Guarded returned nic known)
    (oldest : base[(frames returned).length]? = some frame) (since : accepted <+: base)
    (held : Held base (frames returned).length 0 rsar between later) :
    Holds (Guarded returned) Rely
      (fun value after known => Resting (returned ++ [⟨accepted, value, known⟩]) after known)
      (takeFrame maxlen (pageAt (1 + pagesBefore base (frames returned).length))) between later := by
  have size := held.holding.sizes frame (mem_of_getElem? (held.oldest oldest))
  refine (readHeader_holds guards oldest held).bind fun words between later ⟨⟨rsar, held⟩, odd, page, counted⟩ => ?_
  obtain ⟨h0, count⟩ := words
  have bounds := pageAt_inside (1 + pagesBefore base (frames returned).length + pageCount frame)
  simp only at odd page counted
  subst counted
  refine Holds.branch (fun bad => absurd bad (by omega)) fun _ => Holds.branch (fun bad => absurd bad (by omega)) fun _ => ?_
  have payload : min (frame.length + 4 - 4) maxlen = frame.length := by omega
  rw [payload, page]
  refine (readFrame_holds guards oldest held).bind fun out after known ⟨⟨rsar, held⟩, whole⟩ => Holds.pure ?_
  have got : received ⟨accepted, (frame.length, out), known⟩ = some frame := by
    have positive : (0 : Int) < frame.length := by omega
    simp only [received, positive, if_true, Int.toNat_natCast, whole]
  have grown : frames (returned ++ [⟨accepted, (frame.length, out), known⟩]) = frames returned ++ [frame] := by
    rw [frames, filterMap_append, filterMap_cons_some got, filterMap_nil, frames]
  have next : known[(frames returned).length]? = some frame := by
    obtain ⟨more, rfl⟩ := held.since
    rw [getElem?_append_left (List.getElem?_eq_some_iff.mp oldest).1]
    exact oldest
  refine ⟨?_, resting.logged.append ?_ ⟨by simp only; omega, resting.holding.behind, fun zero => ?_, fun _ => ?_⟩⟩
  · rw [grown, length_append, length_singleton]
    exact held.holding
  · rw [grown]
    exact prefix_next (resting.logged.order.trans (since.trans held.since)) next
  · simp only at zero
    omega
  · exact (List.getElem?_eq_some_iff.mp next).1

private theorem poll_holds {maxlen : Nat} (large : 1514 ≤ maxlen) (resting : Resting returned nic accepted) :
    Holds (Guarded returned) Rely
      (fun value after known => Resting (returned ++ [⟨accepted, value, known⟩]) after known)
      (ne2kPoll true maxlen) nic accepted := by
  have guards : ∀ {base : List (List UInt8)}, accepted <+: base → ∀ {nic known taken}, base <+: known →
      Holding nic known taken → Guarded returned nic known :=
    fun first _ _ _ second holding => ⟨⟨_, holding⟩, resting.logged.grows (first.trans second)⟩
  have start : Held accepted (frames returned).length (nic.cmd / 64) nic.rsar nic accepted :=
    ⟨resting.holding, prefix_rfl, resting.holding.behind, rfl, rfl⟩
  refine (page0_holds (guards prefix_rfl) start).bind fun _ between known held => ?_
  have front : Holds (Guarded returned) Rely
      (fun bnry after known => Held accepted (frames returned).length 0 nic.rsar after known ∧
        bnry = pageAt (pagesBefore accepted (frames returned).length)) (inb neBnry) between known := by
    refine held.atomic (guards prefix_rfl) fun seen known held => ⟨held, ?_⟩
    rw [← held.position, ← held.holding.bnry]
    simp [Nic.inb, held.page, neBnry, neCmd, ne2kBase]
  refine front.bind fun bnry between known ⟨held, first⟩ => ?_
  refine (page1_holds (guards prefix_rfl) held).bind fun _ between known held => ?_
  have back : Holds (Guarded returned) Rely
      (fun curr after known => Held accepted (frames returned).length 1 nic.rsar after known ∧
        (pgStart ≤ curr ∧ curr < pgStop) ∧
        (pageAt (1 + pagesBefore accepted (frames returned).length) = curr ↔ known.length = (frames returned).length))
      (inb neCurr) between known := by
    refine held.atomic (guards prefix_rfl) fun seen known held => ⟨held, ?_⟩
    have read : seen.inb neCurr = seen.curr := by simp [Nic.inb, held.page, neCurr, neCmd, ne2kBase]
    have empty := held.holding.empty_iff
    rw [held.position] at empty
    simp only [read]
    refine ⟨?_, empty⟩
    rw [held.holding.curr]
    exact pageAt_inside _
  refine back.bind fun curr between known ⟨held, inside, empty⟩ => ?_
  -- From here on the call knows the frames that had been accepted when it read CURR.
  have since := held.since
  have position := held.position
  refine (page0_holds (guards since) held.rebase).bind fun _ between later held => ?_
  have start' : pgStart = 70 := rfl
  have stop : pgStop = 128 := rfl
  have stays : (if bnry < pgStart ∨ pgStop ≤ bnry then pgStart else bnry) = bnry := by
    rw [first]
    have bounds := pageAt_inside (pagesBefore accepted (frames returned).length)
    exact if_neg (by omega)
  have next : (if pgStop ≤ (bnry + 1) % 256 then pgStart else (bnry + 1) % 256) =
      pageAt (1 + pagesBefore accepted (frames returned).length) := by
    rw [first, pageAt_eq, pageAt_eq]
    split <;> omega
  simp only [stays, next]
  refine Holds.branch (fun outside => absurd outside (by omega)) fun _ => Holds.branch (fun same => ?_) fun other => ?_
  · have all := empty.mp same
    have none : frames (returned ++ [⟨accepted, (0, []), later⟩]) = frames returned := by simp [frames, received]
    refine Holds.pure ⟨none ▸ held.holding, resting.logged.append ?_ ⟨Int.le_refl _, start.reach, fun _ => ?_, fun no => absurd rfl no⟩⟩
    · rw [none]
      exact resting.logged.order.trans (since.trans held.since)
    · rw [← all]
      exact since.length_le
  · have behind := since.length_le
    have reach := start.reach
    have more : (frames returned).length < known.length := by
      have differs := mt empty.mpr other
      omega
    rw [← position]
    exact take_holds large resting (guards since) (getElem?_eq_getElem more) since held

structure Arrival where
  status : UInt8
  frame : List UInt8

inductive Receives : Nic → List (List UInt8) → Arrival → Nic → List (List UInt8) → Prop where
  | accepted {nic : Nic} {accepted : List (List UInt8)} {status : UInt8} {frame : List UInt8}
      (odd : status.toNat % 2 = 1) (size : 60 ≤ frame.length ∧ frame.length ≤ 1514) (free : nic.fits frame) :
      Receives nic accepted ⟨status, frame⟩ (nic.receive status frame) (accepted ++ [frame])
  | dropped {nic : Nic} {accepted : List (List UInt8)} {status : UInt8} {frame : List UInt8} (full : ¬nic.fits frame) :
      Receives nic accepted ⟨status, frame⟩ nic accepted

theorem Receives.rely {after : Nic} {arrival : Arrival} (receives : Receives nic accepted arrival after known) :
    Rely nic accepted after known := by
  cases receives with
  | accepted odd size free =>
    exact ⟨prefix_append _ _, rfl, rfl, fun taken holding => holding.receive odd size free⟩
  | dropped full => exact ⟨prefix_rfl, rfl, rfl, fun _ holding => holding⟩

def Polls (program : Prog Nic (Int × List UInt8)) : Prop := ∃ maxlen, 1514 ≤ maxlen ∧ program = ne2kPoll true maxlen

theorem poll_rules : Session.Rules Guarded Resting Rely Receives Polls where
  reflexive _ _ := ⟨prefix_rfl, rfl, rfl, fun _ holding => holding⟩
  transitive first second :=
    ⟨first.grows.trans second.grows, second.cmd.trans first.cmd, second.rsar.trans first.rsar,
      fun taken holding => second.keeps taken (first.keeps taken holding)⟩
  within receives := receives.rely
  stable resting receives := ⟨receives.rely.keeps _ resting.holding, resting.logged.grows receives.rely.grows⟩
  guarded resting := ⟨⟨_, resting.holding⟩, resting.logged⟩
  program polls resting := by
    obtain ⟨maxlen, large, rfl⟩ := polls
    exact poll_holds large resting

private theorem outb_run (port value : Nat) (nic : Nic) :
    (outb port value).run nic = ((), nic.outb port (value % 256)) := rfl

private theorem inb_run (port : Nat) (nic : Nic) : (inb port).run nic = (nic.inb port, nic) := rfl

private theorem stopCard_run (nic : Nic) :
    (stopCard.run nic).2.pstart = pgStart ∧ (stopCard.run nic).2.pstop = pgStop ∧ (stopCard.run nic).2.bnry = pgStart := by
  simp [stopCard, outb_run, inb_run, Nic.outb, ne2kBase, neCmd, nePstart, nePstop, neBnry, neIsr, neRsar0, neRsar1,
    neRbcr0, neRbcr1, neRcr, neTcr, neDcr, pgStart, pgStop]

private theorem readWords_run (count : Nat) (nic : Nic) : ∃ rsar, ((readWords count).run nic).2 = { nic with rsar } := by
  induction count generalizing nic with
  | zero => exact ⟨nic.rsar, rfl⟩
  | succ count ih =>
    obtain ⟨rsar, rest⟩ := ih nic.inw.2
    refine ⟨rsar, ?_⟩
    rw [readWords, Prog.run_bind, Prog.run_bind]
    exact rest

private theorem startCard_run (a b c d e f : UInt8) (cmd : nic.cmd = 0x22) :
    let online := ((startCard [a, b, c, d, e, f]).run nic).2
    online.pstart = nic.pstart ∧ online.pstop = nic.pstop ∧ online.bnry = nic.bnry ∧ online.curr = pgStart + 1 := by
  simp [startCard, page0, page1, outbs, outb_run, inb_run, Nic.outb, Nic.inb, cmd, ne2kBase, neCmd, nePstart, nePstop,
    neBnry, neIsr, neRsar0, neRsar1, neRcr, neTcr, neImr, neCurr, nePar0, pgStart, List.replicate]

theorem init_holding {start : Nic} {mac : List UInt8} (began : ne2kInit.run start = (some mac, nic)) :
    Holding nic [] 0 := by
  obtain ⟨pstart, pstop, bnry⟩ := stopCard_run start
  obtain ⟨rsar, read⟩ := readWords_run 16 (stopCard.run start).2
  simp only [ne2kInit, Prog.run_bind, read] at began
  generalize (stopCard.run start).2 = stopped at *
  generalize ((readWords 16).run stopped).1 = prom at *
  split at began
  · cases began
  · obtain ⟨first, last, boundary, current⟩ := startCard_run (prom.getD 0 0) (prom.getD 2 0) (prom.getD 4 0)
      (prom.getD 6 0) (prom.getD 8 0) (prom.getD 10 0)
      (show (dmaDone.run { stopped with rsar }).2.cmd = 0x22 by rfl)
    have online := congrArg Prod.snd began
    simp only [Prog.run_bind, Prog.run_pure] at online
    subst online
    refine ⟨first.trans pstart, last.trans pstop, by simp, Nat.le_refl _, by decide, boundary.trans bnry, current, ?_⟩
    intro number frame _ is
    simp at is

/-- However frames arrive meanwhile, the calls return the accepted frames in order, and BNRY stays
in the ring. -/
theorem ring_delivers_accepted {start nic : Nic} {mac : List UInt8} (began : ne2kInit.run start = (some mac, nic))
    {events : List (Session.Event Arrival)} {session : Session Nic (List (List UInt8)) (Int × List UInt8)}
    (run : Run (Session.Step Receives Polls) ⟨nic, [], .idle, []⟩ events session) :
    frames session.returned <+: session.history ∧
      (∀ index result, session.returned[index]? = some result →
        Timely (frames (session.returned.take index)).length result) ∧
      pgStart ≤ session.state.bnry ∧ session.state.bnry < pgStop := by
  have initial : Resting [] nic [] := ⟨init_holding began, prefix_rfl, fun index _ is => by simp at is⟩
  have sound := run.preserves (fun _ _ _ sound moves => Session.Sound.step poll_rules sound moves)
    (show Session.Sound Guarded Resting Rely ⟨nic, [], .idle, []⟩ from initial)
  obtain ⟨⟨taken, holding⟩, logged⟩ := sound.guarded poll_rules
  refine ⟨logged.order, logged.timely, ?_⟩
  rw [holding.bnry]
  exact pageAt_inside _

def card : Nic :=
  ⟨0x21, 0, 0, 0, 0, 0, 0, fun _ => 0, fun _ => 0, fun address => if address < 32 then 0x52 else 0⟩

def shortFrame : List UInt8 := (List.range 60).map UInt8.ofNat

theorem ring_delivers_accepted_one : ∃ mac nic events session,
    ne2kInit.run card = (some mac, nic) ∧ Run (Session.Step Receives Polls) ⟨nic, [], .idle, []⟩ events session ∧
      session.history = [shortFrame] ∧ frames session.returned = [shortFrame] ∧
      frames session.returned <+: session.history := by
  have began : (ne2kInit.run card).1 = some (List.replicate 6 0x52) := by decide +kernel
  have free : (ne2kInit.run card).2.fits shortFrame := by decide +kernel
  have polled : ((ne2kPoll true 1514).run ((ne2kInit.run card).2.receive 1 shortFrame)).1 = (60, shortFrame) := by
    decide +kernel
  generalize ran : ne2kInit.run card = start at *
  obtain ⟨mac, nic⟩ := start
  cases began
  have arrives : Session.Step Receives Polls ⟨nic, [], .idle, []⟩ (.others ⟨1, shortFrame⟩)
      ⟨nic.receive 1 shortFrame, [shortFrame], .idle, []⟩ := .others (.accepted (by decide) (by decide) free)
  obtain ⟨ticks, run⟩ := @Session.calls_alone _ _ _ _ Receives Polls ⟨nic.receive 1 shortFrame, [shortFrame], .idle, []⟩
    (ne2kPoll true 1514) rfl ⟨1514, Nat.le_refl _, rfl⟩
  have whole := Run.next arrives run
  refine ⟨_, nic, _, _, rfl, whole, rfl, ?_, (ring_delivers_accepted ran whole).1⟩
  simp only [Session.afterCall, polled]
  decide +kernel

end GWKernel.Ne2k
