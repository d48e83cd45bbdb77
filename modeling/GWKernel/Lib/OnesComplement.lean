import GWKernel.Lib.Bytes

/-! The Internet checksum: 16-bit words added with an end-around carry. A sum is known by its
remainder modulo 65535 and by whether it is zero. -/

namespace GWKernel.Lib
open List

def endAround (left right : Nat) : Nat := if left + right < 65536 then left + right else left + right - 65535

def onesSum (words : List Nat) : Nat := words.foldl endAround 0

/-- The 16-bit words of a packet, an odd last byte being the high half of its word. -/
def words16 : List UInt8 → List Nat
  | [] => []
  | [last] => [last.toNat * 256]
  | high :: low :: rest => (high.toNat * 256 + low.toNat) :: words16 rest

/-- `value` is what the number `total` becomes in 16 bits. -/
structure Folds (total value : Nat) : Prop where
  small : value ≤ 65535
  same : value % 65535 = total % 65535
  zero : value = 0 ↔ total = 0

variable {total value : Nat}

theorem Folds.unique {other : Nat} (first : Folds total value) (second : Folds total other) : value = other := by
  obtain ⟨small, same, zero⟩ := first
  obtain ⟨small', same', zero'⟩ := second
  omega

theorem Folds.self (small : total < 65536) : Folds total total := ⟨by omega, rfl, Iff.rfl⟩

theorem Folds.endAround {word : Nat} (folds : Folds total value) (small : word < 65536) :
    Folds (total + word) (endAround value word) := by
  obtain ⟨bounded, same, zero⟩ := folds
  unfold Lib.endAround
  constructor <;> split <;> omega

theorem Folds.complement (folds : Folds total value) : Folds (total + (65535 - value)) 65535 := by
  obtain ⟨small, same, zero⟩ := folds
  constructor <;> omega

theorem onesSum_folds {words : List Nat} (small : ∀ word ∈ words, word < 65536) : Folds words.sum (onesSum words) := by
  have run (total value : Nat) (folds : Folds total value) :
      Folds (total + words.sum) (words.foldl Lib.endAround value) := by
    induction words generalizing total value with
    | nil => exact folds
    | cons word rest ih =>
      rw [sum_cons, ← Nat.add_assoc]
      exact ih (fun other inside => small other (mem_cons_of_mem _ inside)) _ _
        (folds.endAround (small word mem_cons_self))
  simpa [onesSum] using run 0 0 (.self (by omega))

theorem words16_small (bytes : List UInt8) : ∀ word ∈ words16 bytes, word < 65536 := by
  fun_induction words16 bytes with
  | case1 => simp
  | case2 last =>
    have := last.toNat_lt
    simp only [mem_singleton]
    omega
  | case3 high low rest ih =>
    have := high.toNat_lt
    have := low.toNat_lt
    simp only [mem_cons, forall_eq_or_imp]
    exact ⟨by omega, ih⟩

theorem words16_append {bytes : List UInt8} (even : bytes.length % 2 = 0) (more : List UInt8) :
    words16 (bytes ++ more) = words16 bytes ++ words16 more := by
  fun_induction words16 bytes with
  | case1 => rfl
  | case2 last => simp at even
  | case3 high low rest ih =>
    have even : rest.length % 2 = 0 := by
      simp only [length_cons] at even
      omega
    simp only [cons_append, words16, ih even]

theorem sum_words16_le (bytes : List UInt8) : (words16 bytes).sum ≤ 65535 * ((bytes.length + 1) / 2) := by
  fun_induction words16 bytes with
  | case1 => simp
  | case2 last =>
    have := last.toNat_lt
    simp only [sum_singleton, length_singleton]
    omega
  | case3 high low rest ih =>
    have := high.toNat_lt
    have := low.toNat_lt
    simp only [sum_cons, length_cons]
    omega

theorem sum_words16_toBe16 (small : value < 65536) : (words16 (toBe16 value)).sum = value := by
  simp only [toBe16, words16, sum_singleton, UInt8.toNat_ofNat']
  omega

theorem onesSum_patched {patched : List UInt8} (folds : Folds total value)
    (sums : (words16 patched).sum = total + (65535 - value)) : onesSum (words16 patched) = 65535 := by
  have all := onesSum_folds (words16_small patched)
  rw [sums] at all
  exact all.unique folds.complement

end GWKernel.Lib
