import GWKernel.Lib.Interleave

/-! The keyboard driver (kernel/drivers/kbd.c): the interrupt handler fills a ring of characters,
`kbd_getc_nonblock` empties it with interrupts enabled. -/

namespace GWKernel.Kbd
open Lib

def kbuf : Nat := 64

/-- The static variables of kbd.c. -/
structure State where
  buf : Nat → UInt8
  head : Nat
  tail : Nat
  shift : Bool
  caps : Bool
  ctrl : Bool

def ascii (literal : String) : List UInt8 := literal.toList.map fun char => char.toNat.toUInt8

def map : List UInt8 :=
  [0, 27] ++ ascii "1234567890-=" ++ [8, 9] ++ ascii "qwertyuiop[]" ++ [10, 0] ++
    ascii "asdfghjkl;" ++ [0x27, 0x60, 0, 0x5C] ++ ascii "zxcvbnm,./" ++ [0, 0x2A, 0, 0x20]

def mapShift : List UInt8 :=
  [0, 27] ++ ascii "!@#$%^&*()_+" ++ [8, 9] ++ ascii "QWERTYUIOP" ++ [0x7B, 0x7D, 10, 0] ++
    ascii "ASDFGHJKL:" ++ [0x22, 0x7E, 0, 0x7C] ++ ascii "ZXCVBNM<>?" ++ [0, 0x2A, 0, 0x20]

/-- The test of `push`: the ring has room. -/
def accepts (kbd : State) : Bool := (kbd.head + 1) % kbuf ≠ kbd.tail

def push (char : UInt8) (kbd : State) : State :=
  if accepts kbd then
    { kbd with
      buf := fun index => if index = kbd.head then char else kbd.buf index
      head := (kbd.head + 1) % kbuf }
  else kbd

/-- The character of a make code under the modifier keys; 0 for a key without one. -/
def translate (kbd : State) (code : UInt8) : UInt8 :=
  let char := (if kbd.shift ^^ kbd.caps then mapShift else map).getD code.toNat 0
  let char := if 0x61 ≤ char ∧ char ≤ 0x7A ∧ kbd.caps ∧ !kbd.shift then char - 32 else char
  if 0x41 ≤ char ∧ char ≤ 0x5A ∧ kbd.caps ∧ kbd.shift then char + 32 else char

/-- The part of `kbd_irq` between reading the scancode and `push`. -/
def decode (scancode : UInt8) (kbd : State) : State × Option UInt8 :=
  if scancode = 0xE0 then (kbd, none)
  else
    let release := scancode &&& 0x80 != 0
    let code := scancode &&& 0x7F
    if code = 0x2A ∨ code = 0x36 then ({ kbd with shift := !release }, none)
    else if code = 0x1D then ({ kbd with ctrl := !release }, none)
    else if code = 0x3A ∧ release = false then ({ kbd with caps := !kbd.caps }, none)
    else if release then (kbd, none)
    else if kbd.ctrl ∧ code = 0x2E then (kbd, some 0x03)
    else if translate kbd code = 0 then (kbd, none)
    else (kbd, some (translate kbd code))

/-- `kbd_irq` with the bytes it finds at the status and data ports. -/
def kbdIrq (status scancode : UInt8) (kbd : State) : State :=
  if status &&& 1 = 0 then kbd
  else match decode scancode kbd with
    | (kbd, none) => kbd
    | (kbd, some char) => push char kbd

/-- `kbd_getc_nonblock`; `none` is the result -1. -/
def kbdGetcNonblock : Prog State (Option UInt8) := do
  let empty ← Prog.atomic fun kbd => (kbd.head == kbd.tail, kbd)
  if empty then pure none
  else
    let char ← Prog.atomic fun kbd => (kbd.buf kbd.tail, kbd)
    Prog.atomic fun kbd => ((), { kbd with tail := (kbd.tail + 1) % kbuf })
    pure (some char)

/-- `kbd_init`; the bytes it drains from the controller are not looked at. -/
def kbdInit (kbd : State) : State :=
  { kbd with head := 0, tail := 0, shift := false, caps := false, ctrl := false }

end GWKernel.Kbd
