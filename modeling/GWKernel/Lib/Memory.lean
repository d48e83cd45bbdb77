import GWKernel.Lib.Span

/-! Byte-addressed memory with little-endian words. A buffer is a memory of which only the first
bytes are used. -/

namespace GWKernel.Lib

abbrev Mem := Nat → UInt8

namespace Mem

/-- The `width` bytes at `address`, least significant first. -/
def le (mem : Mem) (address : Nat) : Nat → Nat
  | 0 => 0
  | width + 1 => (mem address).toNat + 256 * le mem (address + 1) width

def put (mem : Mem) (address width value : Nat) : Mem := fun other =>
  if address ≤ other ∧ other < address + width then UInt8.ofNat (value / 256 ^ (other - address)) else mem other

/-- `memset`. -/
def fill (mem : Mem) (address size : Nat) (byte : UInt8) : Mem := fun other =>
  if address ≤ other ∧ other < address + size then byte else mem other

/-- `memcpy` from a list of bytes. -/
def copy (mem : Mem) (address : Nat) (bytes : List UInt8) : Mem := fun other =>
  if address ≤ other ∧ other < address + bytes.length then bytes.getD (other - address) 0 else mem other

/-- The `size` bytes at `address`. -/
def slice (mem : Mem) (address size : Nat) : List UInt8 := (List.range size).map fun index => mem (address + index)

def Agree (first second : Mem) (address size : Nat) : Prop :=
  ∀ other, address ≤ other → other < address + size → first other = second other

variable {first second : Mem} {address size width other : Nat} {spans : List Span} {before after : Mem} {span : Span}

theorem Agree.trans {third : Mem} (left : Agree first second address size) (right : Agree second third address size) :
    Agree first third address size :=
  fun other above below => (left other above below).trans (right other above below)

theorem Agree.within {inner : Nat} (same : Agree first second address size) (low : address ≤ inner)
    (high : inner + width ≤ address + size) : Agree first second inner width :=
  fun other above below => same other (by omega) (by omega)

theorem le_congr {here there : Nat} (same : ∀ index < width, first (here + index) = second (there + index)) :
    le first here width = le second there width := by
  induction width generalizing here there with
  | zero => rfl
  | succ width ih =>
    have head := same 0 (by omega)
    have tail := @ih (here + 1) (there + 1) fun index inside => by
      simpa only [Nat.add_assoc, Nat.add_comm 1] using same (index + 1) (by omega)
    simp only [Nat.add_zero] at head
    simp only [le, head, tail]

theorem Agree.le_eq (same : Agree first second address width) : le first address width = le second address width :=
  le_congr fun _ inside => same _ (by omega) (by omega)

theorem Agree.slice_eq (same : Agree first second address size) :
    slice first address size = slice second address size := by
  apply List.map_congr_left
  intro index member
  have bound := List.mem_range.mp member
  exact same _ (by omega) (by omega)

theorem put_agree (mem : Mem) (address width value : Nat) (apart : other + size ≤ address ∨ address + width ≤ other) :
    Agree (put mem address width value) mem other size := by
  intro index above below
  have outside : ¬(address ≤ index ∧ index < address + width) := by omega
  simp only [put, outside, if_false]

theorem fill_agree (mem : Mem) (address width : Nat) (byte : UInt8)
    (apart : other + size ≤ address ∨ address + width ≤ other) :
    Agree (fill mem address width byte) mem other size := by
  intro index above below
  have outside : ¬(address ≤ index ∧ index < address + width) := by omega
  simp only [fill, outside, if_false]

theorem copy_agree (mem : Mem) (address : Nat) (bytes : List UInt8)
    (apart : other + size ≤ address ∨ address + bytes.length ≤ other) :
    Agree (copy mem address bytes) mem other size := by
  intro index above below
  have outside : ¬(address ≤ index ∧ index < address + bytes.length) := by omega
  simp only [copy, outside, if_false]

theorem le_lt (mem : Mem) (address width : Nat) : le mem address width < 256 ^ width := by
  induction width generalizing address with
  | zero => simp [le]
  | succ width ih =>
    have rest := ih (address + 1)
    have byte := (mem address).toNat_lt
    simp only [le, Nat.pow_succ]
    omega

theorem le_add (mem : Mem) (address first second : Nat) :
    le mem address (first + second) = le mem address first + 256 ^ first * le mem (address + first) second := by
  induction first generalizing address with
  | zero => simp [le]
  | succ first ih =>
    rw [show first + 1 + second = first + second + 1 by omega]
    simp only [le, ih, Nat.pow_succ]
    rw [show address + 1 + first = address + (first + 1) by omega, Nat.mul_add, Nat.mul_comm (256 ^ first) 256,
      Nat.mul_assoc, Nat.add_assoc]

private theorem le_shifted (mem : Mem) (address base width value shift : Nat) (start : address = base + shift)
    (written : ∀ index, index < width → (mem (address + index)).toNat = value / 256 ^ (shift + index) % 256) :
    le mem address width = value / 256 ^ shift % 256 ^ width := by
  induction width generalizing address shift with
  | zero => simp [le, Nat.mod_one]
  | succ width ih =>
    have head := written 0 (by omega)
    have tail := ih (address + 1) (shift + 1) (by omega) (fun index inside => by
      have byte := written (index + 1) (by omega)
      rw [show address + 1 + index = address + (index + 1) by omega, byte,
        show shift + 1 + index = shift + (index + 1) by omega])
    simp only [Nat.add_zero] at head
    simp only [le, head, tail]
    rw [Nat.pow_succ 256 width, Nat.mul_comm (256 ^ width) 256, Nat.mod_mul, Nat.pow_succ, Nat.div_div_eq_div_mul]

@[simp] theorem le_put (mem : Mem) (address width value : Nat) :
    le (put mem address width value) address width = value % 256 ^ width := by
  have bytes := le_shifted (put mem address width value) address address width value 0 (by omega) (by
    intro index inside
    have here : address ≤ address + index ∧ address + index < address + width := by omega
    simp only [put, here, and_self, if_true, Nat.add_sub_cancel_left, Nat.zero_add, UInt8.toNat_ofNat'])
  simpa using bytes

theorem le_put_apart (mem : Mem) (address width value : Nat)
    (apart : other + size ≤ address ∨ address + width ≤ other) :
    le (put mem address width value) other size = le mem other size :=
  (put_agree mem address width value apart).le_eq

theorem le_fill_apart (mem : Mem) (address width : Nat) (byte : UInt8)
    (apart : other + size ≤ address ∨ address + width ≤ other) :
    le (fill mem address width byte) other size = le mem other size :=
  (fill_agree mem address width byte apart).le_eq

theorem le_fill_zero (mem : Mem) (low : address ≤ other) (high : other + size ≤ address + width) :
    le (fill mem address width 0) other size = 0 := by
  induction size generalizing other with
  | zero => rfl
  | succ size ih =>
    have here : address ≤ other ∧ other < address + width := by omega
    simp only [le, fill, here, and_self, if_true]
    rw [ih (by omega) (by omega)]
    rfl

theorem le_copy (mem : Mem) (address : Nat) {bytes : List UInt8} {offset : Nat}
    (inside : offset + size ≤ bytes.length) :
    le (copy mem address bytes) (address + offset) size = le (fun index => bytes.getD index 0) offset size := by
  refine le_congr fun index below => ?_
  have here : address ≤ address + (offset + index) ∧ address + (offset + index) < address + bytes.length := by omega
  simp only [copy, Nat.add_assoc, here, and_self, if_true, Nat.add_sub_cancel_left]

theorem le_copy_apart (mem : Mem) (address : Nat) (bytes : List UInt8)
    (apart : other + size ≤ address ∨ address + bytes.length ≤ other) :
    le (copy mem address bytes) other size = le mem other size :=
  (copy_agree mem address bytes apart).le_eq

@[simp] theorem slice_length (mem : Mem) (address size : Nat) : (slice mem address size).length = size := by simp [slice]

theorem slice_getElem (mem : Mem) {index : Nat} (inside : index < (slice mem address size).length) :
    (slice mem address size)[index] = mem (address + index) := by simp [slice]

theorem slice_add (mem : Mem) (address first second : Nat) :
    slice mem address (first + second) = slice mem address first ++ slice mem (address + first) second := by
  simp [slice, List.range_add, Nat.add_assoc]

@[simp] theorem slice_copy (mem : Mem) (address : Nat) (bytes : List UInt8) :
    slice (copy mem address bytes) address bytes.length = bytes := by
  refine List.ext_getElem (by simp) fun index inside bound => ?_
  rw [slice_getElem]
  have here : address ≤ address + index ∧ address + index < address + bytes.length := by omega
  simp only [copy, here, and_self, if_true, Nat.add_sub_cancel_left]
  exact (List.getElem_eq_getD 0).symm

/-- Only bytes of the listed ranges differ. -/
def ChangesOnly (spans : List Span) (before after : Mem) : Prop :=
  ∀ address, (∀ span ∈ spans, ¬span.Holds address) → after address = before address

theorem ChangesOnly.refl (spans : List Span) (mem : Mem) : ChangesOnly spans mem mem := fun _ _ => rfl

theorem ChangesOnly.trans {third : Mem} (left : ChangesOnly spans first second)
    (right : ChangesOnly spans second third) : ChangesOnly spans first third :=
  fun address outside => (right address outside).trans (left address outside)

theorem ChangesOnly.weaken {larger : List Span} (changes : ChangesOnly spans before after)
    (inside : ∀ span ∈ spans, ∃ wide ∈ larger, wide.start ≤ span.start ∧
      span.start + span.size ≤ wide.start + wide.size) : ChangesOnly larger before after := by
  intro address outside
  apply changes
  intro span member holds
  obtain ⟨wide, listed, low, high⟩ := inside span member
  exact outside wide listed ⟨by have := holds.1; omega, by have := holds.2; omega⟩

theorem ChangesOnly.mono {larger : List Span} (changes : ChangesOnly spans before after) (subset : spans ⊆ larger) :
    ChangesOnly larger before after :=
  fun address outside => changes address fun span member => outside span (subset member)

theorem ChangesOnly.agree (changes : ChangesOnly spans before after) (apart : ∀ changed ∈ spans, changed.Apart span) :
    Agree after before span.start span.size := by
  intro address low high
  apply changes
  intro changed member holds
  exact (apart changed member).not_both holds ⟨low, high⟩

theorem put_changes (mem : Mem) (value : Nat) (low : span.start ≤ address)
    (high : address + width ≤ span.start + span.size) : ChangesOnly [span] mem (put mem address width value) := by
  intro other outside
  have away := outside span List.mem_cons_self
  simp only [Span.Holds] at away
  have untouched : ¬(address ≤ other ∧ other < address + width) := by omega
  simp only [put, untouched, if_false]

theorem fill_changes (mem : Mem) (byte : UInt8) (low : span.start ≤ address)
    (high : address + width ≤ span.start + span.size) : ChangesOnly [span] mem (fill mem address width byte) := by
  intro other outside
  have away := outside span List.mem_cons_self
  simp only [Span.Holds] at away
  have untouched : ¬(address ≤ other ∧ other < address + width) := by omega
  simp only [fill, untouched, if_false]

end Mem

def word (mem : Mem) (address : Nat) : UInt64 := UInt64.ofNat (mem.le address 8)

def setWord (mem : Mem) (address : Nat) (value : UInt64) : Mem := mem.put address 8 value.toNat

variable {mem other : Mem} {address : Nat} {values : List UInt64}

@[simp] theorem word_setWord (mem : Mem) (address : Nat) (value : UInt64) :
    word (setWord mem address value) address = value := by
  unfold word setWord
  rw [Mem.le_put, Nat.mod_eq_of_lt (show value.toNat < 256 ^ 8 from value.toNat_lt)]
  exact UInt64.ofNat_toNat

theorem word_agree (same : Mem.Agree other mem address 8) : word other address = word mem address := by
  unfold word
  rw [same.le_eq]

theorem setWord_agree (mem : Mem) (value : UInt64) {address size place : Nat}
    (apart : address + size ≤ place ∨ place + 8 ≤ address) : Mem.Agree (setWord mem place value) mem address size :=
  Mem.put_agree mem place 8 value.toNat apart

/-- The words from an address on. -/
def Words (mem : Mem) : Nat → List UInt64 → Prop
  | _, [] => True
  | address, value :: rest => word mem address = value ∧ Words mem (address + 8) rest

theorem Words.agree (words : Words mem address values) (same : Mem.Agree other mem address (8 * values.length)) :
    Words other address values := by
  induction values generalizing address with
  | nil => trivial
  | cons value rest ih =>
    rw [List.length_cons] at same
    exact ⟨(word_agree (same.within (Nat.le_refl _) (by omega))).trans words.1,
      ih words.2 (same.within (by omega) (by omega))⟩

theorem Words.append_iff {more : List UInt64} : Words mem address (values ++ more) ↔
    Words mem address values ∧ Words mem (address + 8 * values.length) more := by
  induction values generalizing address with
  | nil => exact (and_iff_right trivial).symm
  | cons value rest ih =>
    have next : address + 8 * (value :: rest).length = address + 8 + 8 * rest.length := by
      rw [List.length_cons]
      omega
    rw [next]
    exact (and_congr_right fun _ => ih).trans and_assoc.symm

theorem Words.get {index : Nat} {value : UInt64} (words : Words mem address values)
    (is : values[index]? = some value) : word mem (address + 8 * index) = value := by
  induction values generalizing address index with
  | nil => cases is
  | cons first rest ih =>
    cases index with
    | zero =>
      cases is
      exact words.1
    | succ index =>
      rw [show address + 8 * (index + 1) = address + 8 + 8 * index by omega]
      exact ih words.2 is

theorem Words.set (words : Words mem address values) (index : Nat) (value : UInt64) :
    Words (setWord mem (address + 8 * index) value) address (values.set index value) := by
  induction values generalizing address index with
  | nil => trivial
  | cons first rest ih =>
    cases index with
    | zero => exact ⟨word_setWord _ _ _, words.2.agree (setWord_agree _ _ (by omega))⟩
    | succ index =>
      refine ⟨(word_agree (setWord_agree _ _ (by omega))).trans words.1, ?_⟩
      rw [show address + 8 * (index + 1) = address + 8 + 8 * index by omega]
      exact ih words.2 index

end GWKernel.Lib
