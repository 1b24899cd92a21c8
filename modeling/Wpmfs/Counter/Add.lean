import Mathlib.Algebra.BigOperators.Group.List.Basic
import Mathlib.Algebra.Order.Ring.Int
import Mathlib.Algebra.Order.Ring.Nat
import Mathlib.Data.UInt
import Wpmfs.Balloc.Basic
import Wpmfs.Library.Words

/-!
# One addition to a write counter

`_wt_cnter_add` compares the counter before and after above the bits of the threshold. The
threshold is an `int` shift: the processor takes the exponent modulo 32, and from 31 on the mask is
not the one of the multiples of `2 ^ power`.
-/

namespace Wpmfs.Counter

open Balloc (getIntThresSize)

/-- The counters, named by the frames that they count for: the one of `pfn` lies at
`_wt_cnter_file.base + pfn - _pfn0`. -/
abbrev Counters := ℕ → UInt64

/-- `get_int_thres_mask`. -/
def getIntThresMask (power : ℕ) : UInt64 := ~~~(UInt64.ofNat (getIntThresSize power) - 1)

/-- `_wt_cnter_add`: whether an interrupt is due, and the counters. -/
def wtCnterAdd (power : ℕ) (cnters : Counters) (pfn : ℕ) (cnt : UInt64) : Bool × Counters :=
  let res := cnters pfn + cnt
  (((res &&& getIntThresMask power) ^^^ ((res - cnt) &&& getIntThresMask power)) != 0,
    Function.update cnters pfn res)

/-- The answers of those additions to the counter of `pfn`, in the order of their arrival, on which
the counter gets to `m` or past it. -/
def passing (power pfn m : ℕ) : Counters → List UInt64 → List Bool
  | _, [] => []
  | cnters, cnt :: cnts =>
    let (signal, new) := wtCnterAdd power cnters pfn cnt
    if (cnters pfn).toNat < m ∧ m ≤ (new pfn).toNat then signal :: passing power pfn m new cnts
    else passing power pfn m new cnts

variable {power pfn k m : ℕ} {cnters : Counters} {cnt : UInt64} {cnts : List UInt64}

/-- A multiple of `2 ^ power` is passed on the way from `c` to `c + n`. -/
def Crosses (power c n : ℕ) : Prop := c / 2 ^ power ≠ (c + n) / 2 ^ power

theorem crosses_iff_exists {c n : ℕ} :
    Crosses power c n ↔ ∃ k, c < k * 2 ^ power ∧ k * 2 ^ power ≤ c + n := by
  have hpos : 0 < 2 ^ power := Nat.two_pow_pos power
  constructor
  · intro h
    have hle : c / 2 ^ power ≤ (c + n) / 2 ^ power := Nat.div_le_div_right (by omega)
    have hlt : c / 2 ^ power < (c + n) / 2 ^ power := lt_of_le_of_ne hle h
    exact ⟨(c + n) / 2 ^ power, (Nat.div_lt_iff_lt_mul hpos).1 hlt, Nat.div_mul_le_self _ _⟩
  · rintro ⟨k, hlt, hle⟩ heq
    have hk : c / 2 ^ power < k := (Nat.div_lt_iff_lt_mul hpos).2 hlt
    have hk' : k ≤ (c + n) / 2 ^ power := (Nat.le_div_iff_mul_le hpos).2 hle
    omega

/-! ## What the mask compares -/

theorem getIntThresMask_eq (h : power % 32 ≠ 31) :
    getIntThresMask power = ~~~(UInt64.ofNat (2 ^ (power % 32)) - 1) := by
  rw [getIntThresMask, getIntThresSize, if_neg h]

theorem getIntThresMask_eq_bit (h : power % 32 = 31) : getIntThresMask power = 2 ^ 31 := by
  rw [getIntThresMask, getIntThresSize, if_pos h]
  decide

theorem wtCnterAdd_signal :
    (wtCnterAdd power cnters pfn cnt).1 = true ↔
      (cnters pfn + cnt) &&& getIntThresMask power ≠ cnters pfn &&& getIntThresMask power := by
  simp [wtCnterAdd]

theorem wtCnterAdd_cnters :
    (wtCnterAdd power cnters pfn cnt).2 = Function.update cnters pfn (cnters pfn + cnt) := rfl

/-- Below the exponent 31, modulo 32, the multiples of a power of two are told apart. -/
theorem wtCnterAdd_signal_iff (h : power % 32 ≠ 31)
    (hcnt : (cnters pfn).toNat + cnt.toNat < 2 ^ 63) :
    (wtCnterAdd power cnters pfn cnt).1 = true ↔
      Crosses (power % 32) (cnters pfn).toNat cnt.toNat := by
  have hadd : (cnters pfn + cnt).toNat = (cnters pfn).toNat + cnt.toNat := by
    rw [UInt64.toNat_add]
    omega
  have hmask := Words.and_not_lowMask_eq_iff (cnters pfn + cnt) (cnters pfn)
    (by omega : power % 32 < 64)
  rw [wtCnterAdd_signal, getIntThresMask_eq h, Ne, hmask, hadd, Crosses, ne_comm]

/-- At the exponent 31, modulo 32, only the bit 31 is compared. -/
theorem wtCnterAdd_signal_iff_bit (h : power % 32 = 31)
    (hcnt : (cnters pfn).toNat + cnt.toNat < 2 ^ 63) :
    (wtCnterAdd power cnters pfn cnt).1 = true ↔
      (cnters pfn).toNat / 2 ^ 31 % 2 ≠ ((cnters pfn).toNat + cnt.toNat) / 2 ^ 31 % 2 := by
  have hadd : (cnters pfn + cnt).toNat = (cnters pfn).toNat + cnt.toNat := by
    rw [UInt64.toNat_add]
    omega
  have hbit (x : UInt64) : (x &&& 2 ^ 31).toNat = x.toNat / 2 ^ 31 % 2 * 2 ^ 31 := by
    have h31 : (2 ^ 31 : UInt64).toNat = 2 ^ 31 := by decide
    rw [UInt64.toNat_and, h31, Nat.and_two_pow, Nat.toNat_testBit]
  rw [wtCnterAdd_signal, getIntThresMask_eq_bit h, Ne, ← UInt64.toNat_inj, hbit, hbit, hadd]
  omega

/-! ## Each crossing is signalled once -/

theorem toNat_wtCnterAdd (hcnt : (cnters pfn).toNat + cnt.toNat < 2 ^ 63) :
    ((wtCnterAdd power cnters pfn cnt).2 pfn).toNat = (cnters pfn).toNat + cnt.toNat := by
  rw [wtCnterAdd_cnters, Function.update_self, UInt64.toNat_add]
  omega

/-- Nothing passes what the counter has reached. -/
theorem passing_eq_nil (hsum : (cnters pfn).toNat + (cnts.map UInt64.toNat).sum < 2 ^ 63)
    (hm : m ≤ (cnters pfn).toNat) : passing power pfn m cnters cnts = [] := by
  induction cnts generalizing cnters with
  | nil => rfl
  | cons cnt cnts ih =>
    rw [List.map_cons, List.sum_cons] at hsum
    have hnew := @toNat_wtCnterAdd power pfn cnters cnt (by omega)
    simp only [passing]
    rw [if_neg (by omega)]
    exact ih (by omega) (by omega)

/-- An interrupt is raised exactly when a threshold is crossed, and in any sequence of additions
each threshold that is passed is signalled by the one addition that passes it. -/
structure SignalsCrossings (power : ℕ) : Prop where
  add : ∀ (cnters : Counters) (pfn : ℕ) (cnt : UInt64),
    (cnters pfn).toNat + cnt.toNat < 2 ^ 63 →
      ((wtCnterAdd power cnters pfn cnt).1 = true ↔ Crosses power (cnters pfn).toNat cnt.toNat)
  once : ∀ (cnters : Counters) (pfn k : ℕ) (cnts : List UInt64),
    (cnters pfn).toNat + (cnts.map UInt64.toNat).sum < 2 ^ 63 →
      (cnters pfn).toNat < k * 2 ^ power →
      k * 2 ^ power ≤ (cnters pfn).toNat + (cnts.map UInt64.toNat).sum →
      passing power pfn (k * 2 ^ power) cnters cnts = [true]

/-- The second part follows from the first. -/
theorem SignalsCrossings.of_add (h : ∀ (cnters : Counters) (pfn : ℕ) (cnt : UInt64),
    (cnters pfn).toNat + cnt.toNat < 2 ^ 63 →
      ((wtCnterAdd power cnters pfn cnt).1 = true ↔
        Crosses power (cnters pfn).toNat cnt.toNat)) : SignalsCrossings power := by
  refine ⟨h, fun cnters pfn k cnts hsum hlt hle => ?_⟩
  induction cnts generalizing cnters with
  | nil =>
    rw [List.map_nil, List.sum_nil] at hle
    omega
  | cons cnt cnts ih =>
    rw [List.map_cons, List.sum_cons] at hsum hle
    have hnew := @toNat_wtCnterAdd power pfn cnters cnt (by omega)
    simp only [passing]
    by_cases hpass : k * 2 ^ power ≤ ((wtCnterAdd power cnters pfn cnt).2 pfn).toNat
    · have hsignal := (h cnters pfn cnt (by omega)).2 (crosses_iff_exists.2 ⟨k, hlt, by omega⟩)
      rw [if_pos ⟨hlt, hpass⟩, hsignal, passing_eq_nil (by omega) hpass]
    · rw [if_neg fun hp => hpass hp.2]
      exact ih _ (by omega) (by omega) (by omega)

/-- A counter of 0 to which `2 ^ (power % 32)` is added gets a signal, but passes no multiple of
`2 ^ power`. -/
theorem not_signalsCrossings_of_le (h : 32 ≤ power) : ¬SignalsCrossings power := by
  intro hs
  have hk : power % 32 < 32 := Nat.mod_lt _ (by decide)
  have hsize : 2 ^ (power % 32) < 2 ^ 63 := Nat.pow_lt_pow_right (by omega) (by omega)
  have hcnt := Words.toNat_two_pow (k := power % 32) (by omega)
  have hadd := hs.add (fun _ => 0) 0 (UInt64.ofNat (2 ^ (power % 32)))
    (by rw [hcnt]; simpa using hsize)
  have hpass : ¬Crosses power 0 (2 ^ (power % 32)) := by
    have hlt : 2 ^ (power % 32) < 2 ^ power := Nat.pow_lt_pow_right (by omega) (by omega)
    rw [Crosses, Nat.zero_add, Nat.div_eq_of_lt hlt, Nat.zero_div]
    exact fun hne => hne rfl
  have hsignal : (wtCnterAdd power (fun _ => 0) 0 (UInt64.ofNat (2 ^ (power % 32)))).1 = true := by
    by_cases h31 : power % 32 = 31
    · rw [wtCnterAdd_signal_iff_bit h31 (by rw [hcnt]; simpa using hsize), hcnt, h31]
      decide
    · rw [wtCnterAdd_signal_iff h31 (by rw [hcnt]; simpa using hsize), hcnt, Crosses]
      simp [Nat.div_self (Nat.two_pow_pos _)]
  exact hpass (by simpa [hcnt] using hadd.1 hsignal)

/-- From the exponent 31 on the mask is not that of the threshold. -/
theorem signalsCrossings_iff (power : ℕ) : SignalsCrossings power ↔ power ≤ 30 := by
  constructor
  · intro h
    by_contra hlt
    rcases Nat.lt_or_ge power 32 with hpow | hge
    · obtain rfl : power = 31 := by omega
      -- two multiples are passed, and the bit 31 is what it was
      have hadd := h.add (fun _ => 0) 0 (2 ^ 32) (by decide)
      rw [wtCnterAdd_signal_iff_bit rfl (by decide), Crosses] at hadd
      exact hadd.2 (by decide) (by decide)
    · exact not_signalsCrossings_of_le hge h
  · intro h
    have hmod : power % 32 = power := Nat.mod_eq_of_lt (by omega)
    refine .of_add fun cnters pfn cnt hcnt => ?_
    rw [wtCnterAdd_signal_iff (by omega) hcnt, hmod]

/-- With `int_thres=32` the write of one byte to a page without writes raises an interrupt. -/
theorem not_signalsCrossings_32 : ¬∀ power, 12 ≤ power → power < 2 ^ 31 →
    SignalsCrossings power := by
  intro h
  have hadd := (h 32 (by decide) (by decide)).add (fun _ => 0) 0 1 (by decide)
  rw [wtCnterAdd_signal_iff (by decide) (by decide)] at hadd
  exact absurd hadd (by simp [Crosses])

end Wpmfs.Counter
