import Mathlib.Algebra.Order.Ring.Int
import Mathlib.Algebra.Order.Ring.Nat
import Mathlib.Data.Nat.Bitwise
import Mathlib.Tactic.NormNum

/-!
# Masks of 64-bit words

A word less one is a mask of its low bits when it is a power of two; the complement of the mask
cuts a word down to a multiple of the power.
-/

namespace Words

variable {k : ℕ}

theorem toNat_two_pow (hk : k < 64) : (UInt64.ofNat (2 ^ k)).toNat = 2 ^ k := by
  have hlt : 2 ^ k < 2 ^ 64 := Nat.pow_lt_pow_right (by omega) hk
  simpa using Nat.mod_eq_of_lt hlt

theorem toNat_lowMask (hk : k < 64) : (UInt64.ofNat (2 ^ k) - 1).toNat = 2 ^ k - 1 := by
  have hpos : 0 < 2 ^ k := Nat.two_pow_pos k
  have hone : (1 : UInt64) ≤ UInt64.ofNat (2 ^ k) := by
    rw [UInt64.le_iff_toNat_le, toNat_two_pow hk]
    exact hpos
  rw [UInt64.toNat_sub_of_le _ _ hone, toNat_two_pow hk]
  rfl

/-- The bits of a word under the mask: its remainder. -/
theorem toNat_and_lowMask (x : UInt64) (hk : k < 64) :
    (x &&& (UInt64.ofNat (2 ^ k) - 1)).toNat = x.toNat % 2 ^ k := by
  rw [UInt64.toNat_and, toNat_lowMask hk, Nat.and_two_pow_sub_one_eq_mod]

/-- The bits of a word above the mask: the multiple of the power at or below it. -/
theorem toNat_and_not_lowMask (x : UInt64) (hk : k < 64) :
    (x &&& ~~~(UInt64.ofNat (2 ^ k) - 1)).toNat = x.toNat / 2 ^ k * 2 ^ k := by
  have hlow : 2 ^ k - 1 < 2 ^ 64 := by
    have : 2 ^ k < 2 ^ 64 := Nat.pow_lt_pow_right (by omega) hk
    omega
  apply Nat.eq_of_testBit_eq
  intro i
  have hnot : (~~~(UInt64.ofNat (2 ^ k) - 1)).toNat = 2 ^ 64 - (2 ^ k - 1 + 1) := by
    rw [UInt64.toNat_not, toNat_lowMask hk, UInt64.size, Nat.sub_sub, Nat.add_comm]
    norm_num
  rw [UInt64.toNat_and, Nat.testBit_and, hnot, Nat.testBit_two_pow_sub_succ hlow,
    Nat.testBit_two_pow_sub_one, Nat.testBit_mul_two_pow, Nat.testBit_div_two_pow]
  have hhigh : 64 ≤ i → x.toNat.testBit i = false := by
    intro hi
    exact Nat.testBit_lt_two_pow (x.toNat_lt.trans_le (Nat.pow_le_pow_right (by omega) hi))
  by_cases hik : k ≤ i
  · have hsub : i - k + k = i := by omega
    rcases Nat.lt_or_ge i 64 with hi | hi
    · simp [hik, hi, hsub]
    · simp [hik, hhigh hi, hsub]
  · have hlt : i < k := by omega
    simp [hik, hlt]

/-- Two words agree above the mask when they lie between the same two multiples of the power. -/
theorem and_not_lowMask_eq_iff (x y : UInt64) (hk : k < 64) :
    x &&& ~~~(UInt64.ofNat (2 ^ k) - 1) = y &&& ~~~(UInt64.ofNat (2 ^ k) - 1) ↔
      x.toNat / 2 ^ k = y.toNat / 2 ^ k := by
  rw [← UInt64.toNat_inj, toNat_and_not_lowMask x hk, toNat_and_not_lowMask y hk]
  exact Nat.mul_left_inj (Nat.two_pow_pos k).ne'

end Words
