/-
  Foundation/Word.lean --- 64-bit words as natural numbers.

  Machine words are natural numbers below `2 ^ 64`; an operation that can wrap is
  followed by `% 2 ^ 64`.  This file has the masking idioms of C code that rounds
  addresses, and what they compute.
-/
import Mathlib.Tactic

set_option autoImplicit false

namespace Redzone.Foundation

/-- The number of values of a 64-bit word. -/
abbrev wordSize : ℕ := 2 ^ 64

/-- `x & ~(a - 1)`. -/
def clearLow (x a : ℕ) : ℕ := x &&& (wordSize - a)

/-- `x != 0 && (x & (x - 1)) == 0`. -/
def isPow2 (x : ℕ) : Bool := x != 0 && (x &&& (x - 1)) == 0

theorem isPow2_eq_true {x : ℕ} : isPow2 x = true ↔ ∃ k, x = 2 ^ k := by
  rw [isPow2, Bool.and_eq_true, bne_iff_ne, beq_iff_eq]
  exact Nat.ne_zero_and_sub_one_eq_zero_iff_isPowerOfTwo

/-- Masking with a power of two rounds down to a multiple of it. -/
theorem clearLow_two_pow {x k : ℕ} (hx : x < wordSize) (hk : k ≤ 64) :
    clearLow x (2 ^ k) = x / 2 ^ k * 2 ^ k := by
  have hmask : wordSize - 2 ^ k = 2 ^ k * (2 ^ (64 - k) - 1) := by
    rw [Nat.mul_sub, mul_one, ← pow_add, Nat.add_sub_cancel' hk]
  apply Nat.eq_of_testBit_eq
  intro i
  rw [clearLow, hmask, Nat.testBit_and, Nat.testBit_two_pow_mul, Nat.testBit_two_pow_sub_one,
    Nat.mul_comm (x / 2 ^ k), Nat.testBit_two_pow_mul, Nat.testBit_div_two_pow]
  by_cases hik : k ≤ i
  · rw [Nat.sub_add_cancel hik]
    by_cases hi : i < 64
    · have hlt : i - k < 64 - k := by omega
      simp [hik, hlt]
    · have hbit : x.testBit i = false :=
        Nat.testBit_lt_two_pow (hx.trans_le (Nat.pow_le_pow_right (by omega) (by omega)))
      simp [hbit]
  · simp [hik]

theorem clearLow_eight {x : ℕ} (hx : x < wordSize) : clearLow x 8 = x / 8 * 8 :=
  clearLow_two_pow (k := 3) hx (by omega)

/-- The end of an extent, rounded up to a multiple of 8. -/
def roundUp8 (x : ℕ) : ℕ := (x + 7) / 8 * 8

end Redzone.Foundation
