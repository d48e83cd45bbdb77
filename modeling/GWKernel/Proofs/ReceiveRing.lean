import GWKernel.Ne2k
import GWKernel.Lib.PhaseRing

/-! The receive ring between the card and `ne2k_poll`. Pages are counted from the first lap on;
the pages of accepted frames and those released never meet. -/

namespace GWKernel.Ne2k
open Lib Nic List

def pageAt (number : Nat) : Nat := pgStart + number % (pgStop - pgStart)

def cellAt (number : Nat) : Nat := pgStart * 256 + number % ((pgStop - pgStart) * 256)

def pagesBefore (accepted : List (List UInt8)) (count : Nat) : Nat := ((accepted.take count).map pageCount).sum

theorem pageAt_eq (number : Nat) : pageAt number = 70 + number % 58 := rfl

theorem cellAt_eq (number : Nat) : cellAt number = 17920 + number % 14848 := rfl

theorem pageAt_inside (number : Nat) : pgStart ≤ pageAt number ∧ pageAt number < pgStop := by
  rw [pageAt_eq]
  unfold pgStart pgStop
  omega

theorem pageAt_lt (number : Nat) : pageAt number < 256 := Nat.lt_trans (pageAt_inside number).2 (by decide)

theorem pageBefore_pageAt (number : Nat) : pageBefore (pageAt (number + 1)) = pageAt number := by
  have first : pgStart = 70 := rfl
  have last : pgStop = 128 := rfl
  unfold pageBefore
  rw [pageAt_eq, pageAt_eq]
  split <;> omega

theorem cellAt_differ {first second : Nat} (before : first < second) (near : second - first < 14848) :
    cellAt first ≠ cellAt second := by
  rw [cellAt_eq, cellAt_eq]
  omega

variable {number : Nat}

theorem pageAt_offset {offset : Nat} (small : offset < 256) :
    pageAt number * 256 + offset = cellAt (number * 256 + offset) := by
  rw [pageAt_eq, cellAt_eq]
  omega

theorem pageCount_pos (frame : List UInt8) : 0 < pageCount frame := by
  unfold pageCount
  omega

section
variable {accepted : List (List UInt8)}

theorem pagesBefore_append {count : Nat} (more : List (List UInt8)) (within : count ≤ accepted.length) :
    pagesBefore (accepted ++ more) count = pagesBefore accepted count := by
  rw [pagesBefore, take_append_of_le_length within, pagesBefore]

theorem pagesBefore_succ {number : Nat} {frame : List UInt8} (is : accepted[number]? = some frame) :
    pagesBefore accepted (number + 1) = pagesBefore accepted number + pageCount frame := by
  simp only [pagesBefore, take_add_one, is, Option.toList_some, map_append, map_singleton, sum_append,
    sum_singleton]

theorem pagesBefore_mono {first second : Nat} (ordered : first ≤ second) :
    pagesBefore accepted first ≤ pagesBefore accepted second := by
  obtain ⟨more, rfl⟩ := Nat.exists_eq_add_of_le ordered
  simp only [pagesBefore, take_add, map_append, sum_append]
  omega

theorem pagesBefore_lt {number : Nat} (more : number < accepted.length) :
    pagesBefore accepted number < pagesBefore accepted accepted.length := by
  have own := pagesBefore_succ (getElem?_eq_getElem more)
  have positive := pageCount_pos accepted[number]
  have rest : pagesBefore accepted (number + 1) ≤ pagesBefore accepted accepted.length := pagesBefore_mono more
  omega

end

/-- The frame and its header lie in the ring from page number `number` on. -/
structure Stored (ram : Mem) (number : Nat) (frame : List UInt8) : Prop where
  status : (ram (cellAt (number * 256))).toNat % 2 = 1
  next : (ram (cellAt (number * 256 + 1))).toNat = pageAt (number + pageCount frame)
  low : (ram (cellAt (number * 256 + 2))).toNat = (frame.length + 4) % 256
  high : (ram (cellAt (number * 256 + 3))).toNat = (frame.length + 4) / 256
  bytes : ∀ index byte, frame[index]? = some byte → ram (cellAt (number * 256 + 4 + index)) = byte

/-- The card has stored the frames of `accepted`, and the first `taken` have been read. -/
structure Holding (nic : Nic) (accepted : List (List UInt8)) (taken : Nat) : Prop where
  start : nic.pstart = pgStart
  stop : nic.pstop = pgStop
  sizes : ∀ frame ∈ accepted, 60 ≤ frame.length ∧ frame.length ≤ 1514
  behind : taken ≤ accepted.length
  room : pagesBefore accepted accepted.length ≤ pagesBefore accepted taken + 57
  bnry : nic.bnry = pageAt (pagesBefore accepted taken)
  curr : nic.curr = pageAt (1 + pagesBefore accepted accepted.length)
  unread : ∀ number frame, taken ≤ number → accepted[number]? = some frame →
    Stored nic.ram (1 + pagesBefore accepted number) frame

theorem Stored.frame {before after : Mem} {frame : List UInt8} (stored : Stored before number frame)
    (same : ∀ place, number * 256 ≤ place → place < number * 256 + 4 + frame.length →
      after (cellAt place) = before (cellAt place)) : Stored after number frame := by
  refine ⟨?_, ?_, ?_, ?_, fun index byte is => ?_⟩
  · rw [same _ (by omega) (by omega)]
    exact stored.status
  · rw [same _ (by omega) (by omega)]
    exact stored.next
  · rw [same _ (by omega) (by omega)]
    exact stored.low
  · rw [same _ (by omega) (by omega)]
    exact stored.high
  · have inside := (List.getElem?_eq_some_iff.mp is).1
    rw [same _ (by omega) (by omega)]
    exact stored.bytes index byte is

theorem storeBytes_spec {nic : Nic} {address number : Nat} {bytes : List UInt8} {ram : Mem}
    (place : ∀ index < bytes.length, nic.wrap 256 (address + index) = cellAt (number + index))
    (short : bytes.length < 14848) :
    (∀ index byte, bytes[index]? = some byte → nic.storeBytes address bytes ram (cellAt (number + index)) = byte) ∧
      ∀ other, (∀ index < bytes.length, cellAt (number + index) ≠ other) →
        nic.storeBytes address bytes ram other = ram other := by
  induction bytes generalizing address number ram with
  | nil => exact ⟨fun _ _ is => by simp at is, fun _ _ => rfl⟩
  | cons first rest ih =>
    have here := place 0 (by simp)
    have later : ∀ index < rest.length, nic.wrap 256 (address + 1 + index) = cellAt (number + 1 + index) := by
      intro index inside
      have shifted := place (index + 1) (by simpa using inside)
      rw [show address + 1 + index = address + (index + 1) by omega, shifted]
      congr 1
      omega
    simp only [length_cons] at short
    obtain ⟨written, kept⟩ := @ih (address + 1) (number + 1)
      (fun other => if other = nic.wrap 256 address then first else ram other) later (by omega)
    simp only [Nat.add_zero] at here
    constructor
    · intro index byte is
      cases index with
      | zero =>
        obtain rfl : first = byte := by simpa using is
        rw [Nat.add_zero, Nic.storeBytes, kept _ fun index inside => Ne.symm (cellAt_differ (by omega) (by omega))]
        simp only [here, if_true]
      | succ index =>
        rw [show number + (index + 1) = number + 1 + index by omega]
        exact written index byte (by simpa using is)
    · intro other away
      rw [Nic.storeBytes, kept other fun index inside => ?_]
      · have here' : other ≠ nic.wrap 256 address := by
          rw [here]
          exact Ne.symm (away 0 (by simp))
        exact if_neg here'
      · rw [show number + 1 + index = number + (index + 1) by omega]
        exact away (index + 1) (by simpa using inside)

theorem stored_written {nic : Nic} {ram : Mem} {status : UInt8} {frame : List UInt8} (odd : status.toNat % 2 = 1)
    (next : nic.nextPage frame = pageAt (number + pageCount frame)) (short : frame.length ≤ 1514)
    (written : ∀ index byte, (nic.stored status frame)[index]? = some byte → ram (cellAt (number * 256 + index)) = byte) :
    Stored ram number frame := by
  have first := written 0 _ rfl
  have second := written 1 _ rfl
  have third := written 2 _ rfl
  have fourth := written 3 _ rfl
  refine ⟨?_, ?_, ?_, ?_, fun index byte is => ?_⟩
  · rw [Nat.add_zero] at first
    rw [first]
    exact odd
  · rw [second, next, UInt8.toNat_ofNat', Nat.mod_eq_of_lt (pageAt_lt _)]
  · rw [third, UInt8.toNat_ofNat']
  · rw [fourth, UInt8.toNat_ofNat']
    omega
  · rw [Nat.add_assoc]
    refine written (4 + index) byte ?_
    rw [Nat.add_comm]
    exact is

section
variable {nic : Nic} {accepted : List (List UInt8)} {taken : Nat} (holding : Holding nic accepted taken)
include holding

theorem Holding.wrap_page (index : Nat) (near : index < 58) :
    nic.wrap 1 (nic.curr + index) = pageAt (1 + pagesBefore accepted accepted.length + index) := by
  have first : nic.pstart = 70 := holding.start
  have last : nic.pstop = 128 := holding.stop
  have curr := holding.curr
  rw [pageAt_eq] at curr ⊢
  unfold wrap
  split <;> omega

theorem Holding.wrap_cell (index : Nat) (near : index < 14848) :
    nic.wrap 256 (nic.curr * 256 + index) = cellAt ((1 + pagesBefore accepted accepted.length) * 256 + index) := by
  have first : nic.pstart = 70 := holding.start
  have last : nic.pstop = 128 := holding.stop
  have curr := holding.curr
  rw [pageAt_eq] at curr
  rw [cellAt_eq]
  unfold wrap
  split <;> omega

theorem Holding.empty_iff :
    pageAt (1 + pagesBefore accepted taken) = nic.curr ↔ accepted.length = taken := by
  rw [holding.curr]
  constructor
  · intro same
    by_contra other
    have behind := holding.behind
    have less := @pagesBefore_lt accepted taken (by omega)
    have room := holding.room
    rw [pageAt_eq, pageAt_eq] at same
    omega
  · rintro rfl
    rfl

variable {frame : List UInt8}

theorem Holding.fits_iff (small : frame.length ≤ 1514) :
    nic.fits frame ↔
      pagesBefore accepted accepted.length + pageCount frame ≤ pagesBefore accepted taken + 57 := by
  have room := holding.room
  have ordered : pagesBefore accepted taken ≤ pagesBefore accepted accepted.length := pagesBefore_mono holding.behind
  have few : pageCount frame ≤ 6 := by
    unfold pageCount
    omega
  constructor
  · intro free
    by_contra full
    -- The page that BNRY points at is the last one of the lap.
    have page := free (pagesBefore accepted taken + 57 - pagesBefore accepted accepted.length) (by omega)
    rw [holding.wrap_page _ (by omega), holding.bnry] at page
    rw [pageAt_eq, pageAt_eq] at page
    omega
  · intro space index inside
    rw [holding.wrap_page index (by omega), holding.bnry, pageAt_eq, pageAt_eq]
    omega

omit holding in
private theorem less_than_a_lap {read old fresh oldPages freshPages oldSize freshSize place index : Nat} (unread : read ≤ old)
    (behind : old + oldPages ≤ fresh) (room : fresh + freshPages ≤ read + 57) (oldFits : oldSize + 4 ≤ oldPages * 256)
    (freshFits : freshSize + 4 ≤ freshPages * 256) (first : (1 + old) * 256 ≤ place)
    (last : place < (1 + old) * 256 + 4 + oldSize) (inside : index < freshSize + 4) :
    place < (1 + fresh) * 256 + index ∧ (1 + fresh) * 256 + index - place < 14848 := by
  omega

omit holding in
private theorem receive_ram (nic : Nic) (status : UInt8) (frame : List UInt8) :
    (nic.receive status frame).ram = nic.storeBytes (nic.curr * 256) (nic.stored status frame) nic.ram := by
  rw [Nic.receive]

theorem Holding.receive {status : UInt8} (odd : status.toNat % 2 = 1)
    (size : 60 ≤ frame.length ∧ frame.length ≤ 1514) (free : nic.fits frame) :
    Holding (nic.receive status frame) (accepted ++ [frame]) taken := by
  have space := (holding.fits_iff size.2).mp free
  have behind := holding.behind
  have few : pageCount frame ≤ 6 := by
    unfold pageCount
    omega
  have pages : frame.length + 4 ≤ pageCount frame * 256 := by
    unfold pageCount
    omega
  have total : pagesBefore (accepted ++ [frame]) (accepted ++ [frame]).length =
      pagesBefore accepted accepted.length + pageCount frame := by
    rw [length_append, length_singleton, pagesBefore_succ (getElem?_concat_length), pagesBefore_append _ (Nat.le_refl _)]
  have same := @pagesBefore_append accepted taken [frame] behind
  have length : (nic.stored status frame).length = frame.length + 4 := by simp [Nic.stored]
  have next : nic.nextPage frame = pageAt (1 + pagesBefore accepted accepted.length + pageCount frame) :=
    holding.wrap_page _ (by omega)
  obtain ⟨written, kept⟩ := @storeBytes_spec nic (nic.curr * 256) ((1 + pagesBefore accepted accepted.length) * 256)
    (nic.stored status frame) nic.ram (fun index inside => holding.wrap_cell index (by omega)) (by omega)
  refine ⟨holding.start, holding.stop, ?_, ?_, ?_, ?_, ?_, fun number other low is => ?_⟩
  · intro other member
    rcases mem_append.mp member with old | new
    · exact holding.sizes other old
    · rw [mem_singleton.mp new]
      exact size
  · rw [length_append]
    omega
  · rw [total, same]
    exact space
  · rw [same]
    exact holding.bnry
  · rw [total, ← Nat.add_assoc]
    exact next
  · rw [receive_ram]
    generalize nic.storeBytes (nic.curr * 256) (nic.stored status frame) nic.ram = ram at *
    by_cases new : number = accepted.length
    · subst new
      obtain rfl : frame = other := by simpa using is
      rw [pagesBefore_append _ (Nat.le_refl _)]
      exact stored_written odd next size.2 written
    · have inside : number < accepted.length := by
        have bound := (List.getElem?_eq_some_iff.mp is).1
        rw [length_append, length_singleton] at bound
        omega
      rw [getElem?_append_left inside] at is
      rw [pagesBefore_append _ (by omega)]
      -- The new frame is less than a lap ahead of every unread byte.
      have after := pagesBefore_succ is
      have below : pagesBefore accepted (number + 1) ≤ pagesBefore accepted accepted.length := pagesBefore_mono inside
      have above : pagesBefore accepted taken ≤ pagesBefore accepted number := pagesBefore_mono low
      have own : other.length + 4 ≤ pageCount other * 256 := by
        unfold pageCount
        omega
      refine (holding.unread number other low is).frame fun place first last => ?_
      refine kept _ fun index bound => ?_
      rw [length] at bound
      obtain ⟨ahead, near⟩ := less_than_a_lap above (after ▸ below) space own pages first last bound
      exact (cellAt_differ ahead near).symm

theorem Holding.release (oldest : accepted[taken]? = some frame) :
    Holding { nic with bnry := pageAt (pagesBefore accepted (taken + 1)) } accepted (taken + 1) := by
  have more := (List.getElem?_eq_some_iff.mp oldest).1
  have ordered : pagesBefore accepted taken ≤ pagesBefore accepted (taken + 1) := pagesBefore_mono (Nat.le_succ _)
  have room := holding.room
  exact ⟨holding.start, holding.stop, holding.sizes, more, by omega, rfl, holding.curr,
    fun number frame low is => holding.unread number frame (by omega) is⟩

end

end GWKernel.Ne2k
