import Mathlib

/-! Network byte order. The `read` functions are accesses through a pointer whose extent is known:
`none` stands for an access outside it. -/

namespace GWKernel.Lib

/-- The byte at `index`, 0 past the end. -/
def byteAt (bytes : List UInt8) (index : Nat) : Nat := (bytes.getD index 0).toNat

def be16 (bytes : List UInt8) (index : Nat) : Nat := byteAt bytes index * 256 + byteAt bytes (index + 1)

def be32 (bytes : List UInt8) (index : Nat) : Nat := be16 bytes index * 65536 + be16 bytes (index + 2)

def toBe16 (value : Nat) : List UInt8 := [UInt8.ofNat (value / 256), UInt8.ofNat value]

def toBe32 (value : Nat) : List UInt8 := toBe16 (value / 65536) ++ toBe16 value

def readByte (bytes : List UInt8) (index : Nat) : Option Nat := bytes[index]?.map UInt8.toNat

def readBe16 (bytes : List UInt8) (index : Nat) : Option Nat := do
  let high ← readByte bytes index
  let low ← readByte bytes (index + 1)
  pure (high * 256 + low)

def readBe32 (bytes : List UInt8) (index : Nat) : Option Nat := do
  let high ← readBe16 bytes index
  let low ← readBe16 bytes (index + 2)
  pure (high * 65536 + low)

/-- The `count` bytes from `index` on. -/
def readSlice (bytes : List UInt8) (index count : Nat) : Option (List UInt8) :=
  if index + count ≤ bytes.length then some ((bytes.drop index).take count) else none

variable {bytes : List UInt8} {index : Nat}

theorem readByte_inside (inside : index < bytes.length) : readByte bytes index = some (byteAt bytes index) := by
  simp [readByte, byteAt, inside]

theorem readBe16_inside (inside : index + 2 ≤ bytes.length) : readBe16 bytes index = some (be16 bytes index) := by
  simp [readBe16, be16, readByte_inside (show index < bytes.length by omega),
    readByte_inside (show index + 1 < bytes.length by omega)]

theorem readBe32_inside (inside : index + 4 ≤ bytes.length) : readBe32 bytes index = some (be32 bytes index) := by
  simp [readBe32, be32, readBe16_inside (show index + 2 ≤ bytes.length by omega),
    readBe16_inside (show index + 2 + 2 ≤ bytes.length by omega)]

theorem readSlice_inside {count : Nat} (inside : index + count ≤ bytes.length) :
    readSlice bytes index count = some ((bytes.drop index).take count) := if_pos inside

variable {front : List UInt8} {size : Nat}

theorem drop_append (length : front.length = size) (rest : List UInt8) (index : Nat) :
    (front ++ rest).drop (size + index) = rest.drop index := by
  rw [List.drop_append, List.drop_eq_nil_of_le (by omega), List.nil_append, length, Nat.add_sub_cancel_left]

theorem byteAt_append (length : front.length = size) (rest : List UInt8) (index : Nat) :
    byteAt (front ++ rest) (size + index) = byteAt rest index := by
  rw [byteAt, byteAt, List.getD_eq_getElem?_getD, List.getD_eq_getElem?_getD, List.getElem?_append_right (by omega),
    length, Nat.add_sub_cancel_left]

theorem be16_append (length : front.length = size) (rest : List UInt8) (index : Nat) :
    be16 (front ++ rest) (size + index) = be16 rest index := by
  simp only [be16, Nat.add_assoc, byteAt_append length]

theorem be16_toBe16 {value : Nat} (small : value < 65536) (rest : List UInt8) : be16 (toBe16 value ++ rest) 0 = value := by
  have parts : be16 (toBe16 value ++ rest) 0 = (UInt8.ofNat (value / 256)).toNat * 256 + (UInt8.ofNat value).toNat := rfl
  rw [parts, UInt8.toNat_ofNat', UInt8.toNat_ofNat']
  omega

theorem be32_toBe32 {value : Nat} (small : value < 2 ^ 32) (rest : List UInt8) : be32 (toBe32 value ++ rest) 0 = value := by
  have high : be16 (toBe32 value ++ rest) 0 = value / 65536 := be16_toBe16 (by omega) []
  have low : be16 (toBe32 value ++ rest) 2 = value % 65536 := by
    have parts : be16 (toBe32 value ++ rest) 2 = (UInt8.ofNat (value / 256)).toNat * 256 + (UInt8.ofNat value).toNat := rfl
    rw [parts, UInt8.toNat_ofNat', UInt8.toNat_ofNat']
    omega
  rw [be32, high, low]
  omega

end GWKernel.Lib
