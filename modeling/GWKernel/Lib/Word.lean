import Mathlib

/-! Values of fixed-width unsigned computations. -/

namespace GWKernel.Lib

/-- The value of a 32-bit computation. -/
def u32 (value : Nat) : Nat := value % 2 ^ 32

/-- The value of a 64-bit computation. -/
def u64 (value : Nat) : Nat := value % 2 ^ 64

theorem u32_of_lt {value : Nat} (small : value < 2 ^ 32) : u32 value = value := Nat.mod_eq_of_lt small

theorem and_field (value : Nat) {low high : Nat} (ordered : low ≤ high) :
    value &&& (2 ^ high - 2 ^ low) = value % 2 ^ high / 2 ^ low * 2 ^ low := by
  have field : 2 ^ high - 2 ^ low = 2 ^ low * (2 ^ (high - low) - 1) := by
    rw [Nat.mul_sub, Nat.mul_one, ← Nat.pow_add, Nat.add_sub_cancel' ordered]
  apply Nat.eq_of_testBit_eq
  intro bit
  rw [field, Nat.testBit_and, Nat.testBit_two_pow_mul, Nat.testBit_two_pow_sub_one, Nat.testBit_mul_two_pow,
    Nat.testBit_div_two_pow, Nat.testBit_mod_two_pow]
  by_cases above : low ≤ bit
  · have inside : bit - low < high - low ↔ bit < high := by omega
    simp [above, inside, Bool.and_comm]
  · simp [above]

theorem toNat_and_field (value : UInt64) {mask : UInt64} {low high : Nat} (ordered : low ≤ high)
    (is : mask.toNat = 2 ^ high - 2 ^ low) : (value &&& mask).toNat = value.toNat % 2 ^ high / 2 ^ low * 2 ^ low := by
  rw [UInt64.toNat_and, is, and_field _ ordered]

theorem toNat_or_low {value bits : UInt64} (width : Nat) (aligned : value.toNat % 2 ^ width = 0)
    (small : bits.toNat < 2 ^ width) : (value ||| bits).toNat = value.toNat + bits.toNat := by
  obtain ⟨times, is⟩ := Nat.dvd_of_mod_eq_zero aligned
  rw [UInt64.toNat_or, is, Nat.two_pow_add_eq_or_of_lt small]

end GWKernel.Lib
