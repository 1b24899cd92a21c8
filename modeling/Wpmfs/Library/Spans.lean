import Mathlib.Algebra.BigOperators.Group.Finset.Basic
import Mathlib.Algebra.Order.Ring.Int
import Mathlib.Algebra.Order.Ring.Nat
import Mathlib.Data.Nat.Basic
import Mathlib.Tactic.Linarith

/-!
# Spans of aligned blocks

On the level `l` of a tree with `fan` slots a page, the numbers `k` that share `k / fan ^ l` are
behind one pointer. Below a slot of a page on the level `h` the numbers start again from 0: a range
of numbers then becomes the part of it that is behind the slot.
-/

namespace Spans

variable {fan h l i k first last : ℕ}

/-- The pointer on the level `l` that leads to `k` leads to a number of the range, too. -/
def Meets (fan first last l k : ℕ) : Prop :=
  first / fan ^ l ≤ k / fan ^ l ∧ k / fan ^ l ≤ last / fan ^ l

/-- The start of the range, behind the slot `i`. -/
def firstBelow (fan h first i : ℕ) : ℕ := if i = first / fan ^ h then first % fan ^ h else 0

/-- The end of the range, behind the slot `i`. -/
def lastBelow (fan h last i : ℕ) : ℕ :=
  if i = last / fan ^ h then last % fan ^ h else fan ^ h - 1

theorem meets_zero : Meets fan first last 0 k ↔ first ≤ k ∧ k ≤ last := by
  simp [Meets]

theorem meets_all (hk : k < fan ^ h) : Meets fan 0 (fan ^ h - 1) l k :=
  ⟨by simp, Nat.div_le_div_right (by omega)⟩

/-- A number as its digits from the level `h` on and those below. -/
theorem div_split (hfan : 0 < fan) (hl : l ≤ h) (k : ℕ) :
    k / fan ^ l = k / fan ^ h * fan ^ (h - l) + k % fan ^ h / fan ^ l := by
  have hpow : fan ^ h = fan ^ l * fan ^ (h - l) := by rw [← pow_add, Nat.add_sub_cancel' hl]
  have hdigits := Nat.div_add_mod k (fan ^ h)
  calc k / fan ^ l = (k % fan ^ h + fan ^ l * (fan ^ (h - l) * (k / fan ^ h))) / fan ^ l := by
        rw [← Nat.mul_assoc, ← hpow, Nat.add_comm, hdigits]
    _ = k % fan ^ h / fan ^ l + fan ^ (h - l) * (k / fan ^ h) :=
        Nat.add_mul_div_left _ _ (Nat.pow_pos hfan)
    _ = k / fan ^ h * fan ^ (h - l) + k % fan ^ h / fan ^ l := by
        rw [Nat.add_comm, Nat.mul_comm]

theorem mod_div_lt (hfan : 0 < fan) (hl : l ≤ h) (k : ℕ) :
    k % fan ^ h / fan ^ l < fan ^ (h - l) := by
  refine Nat.div_lt_of_lt_mul ?_
  rw [← pow_add, Nat.add_sub_cancel' hl]
  exact Nat.mod_lt _ (Nat.pow_pos hfan)

/-- Numbers behind one pointer are behind one pointer on the levels above. -/
theorem div_mono (hl : l ≤ h) (hle : first / fan ^ l ≤ k / fan ^ l) :
    first / fan ^ h ≤ k / fan ^ h := by
  have hpow : fan ^ h = fan ^ l * fan ^ (h - l) := by rw [← pow_add, Nat.add_sub_cancel' hl]
  rw [hpow, ← Nat.div_div_eq_div_mul, ← Nat.div_div_eq_div_mul]
  exact Nat.div_le_div_right hle

theorem Meets.above (hmeets : Meets fan first last l k) (hl : l ≤ h) :
    Meets fan first last h k :=
  ⟨div_mono hl hmeets.1, div_mono hl hmeets.2⟩

theorem lastBelow_lt (hfan : 0 < fan) (h last i : ℕ) : lastBelow fan h last i < fan ^ h := by
  have hpos : 0 < fan ^ h := Nat.pow_pos hfan
  rw [lastBelow]
  split
  · exact Nat.mod_lt _ hpos
  · omega

/-- The part of the range behind a slot ends with the range. -/
theorem lastBelow_le (hfan : 0 < fan) (hi : i ≤ last / fan ^ h) :
    i * fan ^ h + lastBelow fan h last i ≤ last := by
  have hpos : 0 < fan ^ h := Nat.pow_pos hfan
  have hdigits := Nat.div_add_mod' last (fan ^ h)
  rw [lastBelow]
  split
  · rename_i hlast
    rw [← hlast] at hdigits
    omega
  · have hmul := (Nat.mul_le_mul_right (fan ^ h) (show i + 1 ≤ last / fan ^ h by omega)).trans
      (Nat.div_mul_le_self last (fan ^ h))
    rw [Nat.succ_mul] at hmul
    omega

theorem firstBelow_le (hfan : 0 < fan) (hle : first ≤ last) (i : ℕ) :
    firstBelow fan h first i ≤ lastBelow fan h last i := by
  have hpos : 0 < fan ^ h := Nat.pow_pos hfan
  rw [firstBelow, lastBelow]
  split
  · rename_i hfirst
    split
    · rename_i hlast
      have hf := Nat.div_add_mod first (fan ^ h)
      have hl := Nat.div_add_mod last (fan ^ h)
      rw [← hfirst] at hf
      rw [← hlast] at hl
      omega
    · have := Nat.mod_lt first hpos
      omega
  · exact Nat.zero_le _

theorem firstBelow_of_ne (hi : i ≠ first / fan ^ h) : firstBelow fan h first i = 0 := if_neg hi

theorem lastBelow_of_ne (hi : i ≠ last / fan ^ h) : lastBelow fan h last i = fan ^ h - 1 :=
  if_neg hi

theorem first_meets_below (hfan : 0 < fan) (hl : l ≤ h) (hi : first / fan ^ h ≤ k / fan ^ h) :
    first / fan ^ l ≤ k / fan ^ l ↔
      firstBelow fan h first (k / fan ^ h) / fan ^ l ≤ k % fan ^ h / fan ^ l := by
  rw [div_split hfan hl first, div_split hfan hl k, firstBelow]
  have hlt := mod_div_lt hfan hl first
  split
  · rename_i heq
    rw [heq]
    omega
  · have hmul := Nat.mul_le_mul_right (fan ^ (h - l))
      (show first / fan ^ h + 1 ≤ k / fan ^ h by omega)
    rw [Nat.succ_mul] at hmul
    rw [Nat.zero_div]
    exact iff_of_true (by linarith [Nat.zero_le (k % fan ^ h / fan ^ l)]) (Nat.zero_le _)

theorem last_meets_below (hfan : 0 < fan) (hl : l ≤ h) (hi : k / fan ^ h ≤ last / fan ^ h) :
    k / fan ^ l ≤ last / fan ^ l ↔
      k % fan ^ h / fan ^ l ≤ lastBelow fan h last (k / fan ^ h) / fan ^ l := by
  rw [div_split hfan hl last, div_split hfan hl k, lastBelow]
  have hlt := mod_div_lt hfan hl k
  split
  · rename_i heq
    rw [heq]
    omega
  · have hmul := Nat.mul_le_mul_right (fan ^ (h - l))
      (show k / fan ^ h + 1 ≤ last / fan ^ h by omega)
    have hmod := Nat.mod_lt k (Nat.pow_pos hfan : 0 < fan ^ h)
    have hrest : k % fan ^ h / fan ^ l ≤ (fan ^ h - 1) / fan ^ l :=
      Nat.div_le_div_right (by omega)
    rw [Nat.succ_mul] at hmul
    exact iff_of_true (by linarith [Nat.zero_le (last % fan ^ h / fan ^ l)]) hrest

/-- Below a slot of the range it is the part behind the slot that counts. -/
theorem meets_below (hfan : 0 < fan) (hl : l ≤ h) (hmeets : Meets fan first last h k) :
    Meets fan first last l k ↔ Meets fan (firstBelow fan h first (k / fan ^ h))
      (lastBelow fan h last (k / fan ^ h)) l (k % fan ^ h) :=
  and_congr (first_meets_below hfan hl hmeets.1) (last_meets_below hfan hl hmeets.2)

/-- A sum over the numbers behind `n` slots, slot by slot. -/
theorem sum_range_mul {M : Type*} [AddCommMonoid M] (g : ℕ → M) (n m : ℕ) :
    ∑ k ∈ Finset.range (n * m), g k =
      ∑ i ∈ Finset.range n, ∑ j ∈ Finset.range m, g (i * m + j) := by
  induction n with
  | zero => simp
  | succ n ih => rw [Nat.succ_mul, Finset.sum_range_add, ih, Finset.sum_range_succ]

end Spans
