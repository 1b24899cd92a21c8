import Mathlib.Algebra.BigOperators.Group.List.Basic
import Mathlib.Algebra.Order.Ring.Int
import Mathlib.Algebra.Order.Ring.Nat
import Mathlib.Data.List.Basic
import Mathlib.Order.Bounds.Basic

/-!
# Sets of numbers as lists of ranges

A list of ranges stands for the set of numbers it covers. The elements may be of any type; `lo`
and `hi` read the two ends, both of them inside. The ranges of a `Separated` list are in order
with a gap between any two neighbours, so the list is determined by the set, and an interval is
covered only if one range covers it.
-/

namespace Ranges

variable {α : Type} (lo hi : α → ℕ)

/-- Some range of the list holds `x`. -/
def Covers (l : List α) (x : ℕ) : Prop := ∃ r ∈ l, lo r ≤ x ∧ x ≤ hi r

/-- The sum of the lengths. -/
def total (l : List α) : ℕ := (l.map fun r => hi r + 1 - lo r).sum

/-- The ranges are not empty, in order, and no two of them touch. -/
structure Separated (l : List α) : Prop where
  nonempty : ∀ r ∈ l, lo r ≤ hi r
  apart : l.Pairwise fun r q => hi r + 1 < lo q

/-- The `n` numbers from `c` on, a multiple of `n` above `low`, are all in the set. -/
def AlignedRun (free : ℕ → Prop) (n low c : ℕ) : Prop :=
  n ∣ c ∧ low < c ∧ ∀ x, c ≤ x → x < c + n → free x

section Lemmas

variable {lo hi} {l l' pre : List α} {r : α} {x b n : ℕ}

@[simp] theorem covers_nil : ¬Covers lo hi [] x := by simp [Covers]

@[simp] theorem covers_cons :
    Covers lo hi (r :: l) x ↔ (lo r ≤ x ∧ x ≤ hi r) ∨ Covers lo hi l x := by
  simp [Covers]

@[simp] theorem covers_append :
    Covers lo hi (pre ++ l) x ↔ Covers lo hi pre x ∨ Covers lo hi l x := by
  simp [Covers, or_and_right, exists_or]

@[simp] theorem total_nil : total lo hi [] = 0 := rfl

@[simp] theorem total_cons : total lo hi (r :: l) = hi r + 1 - lo r + total lo hi l := rfl

@[simp] theorem total_append :
    total lo hi (pre ++ l) = total lo hi pre + total lo hi l := by
  simp [total]

@[simp] theorem separated_nil : Separated lo hi [] := ⟨by simp, .nil⟩

theorem separated_cons : Separated lo hi (r :: l) ↔
    lo r ≤ hi r ∧ (∀ q ∈ l, hi r + 1 < lo q) ∧ Separated lo hi l := by
  constructor
  · rintro ⟨hne, hap⟩
    obtain ⟨hr, hl⟩ := List.pairwise_cons.1 hap
    exact ⟨hne r (by simp), hr, fun q hq => hne q (by simp [hq]), hl⟩
  · rintro ⟨hr, hap, hl⟩
    exact ⟨by simpa [hr] using hl.nonempty, List.pairwise_cons.2 ⟨hap, hl.apart⟩⟩

theorem separated_append : Separated lo hi (pre ++ l) ↔
    Separated lo hi pre ∧ Separated lo hi l ∧ ∀ r ∈ pre, ∀ q ∈ l, hi r + 1 < lo q := by
  constructor
  · rintro ⟨hne, hap⟩
    obtain ⟨hp, hl, hpl⟩ := List.pairwise_append.1 hap
    exact ⟨⟨fun q hq => hne q (by simp [hq]), hp⟩, ⟨fun q hq => hne q (by simp [hq]), hl⟩, hpl⟩
  · rintro ⟨hp, hl, hpl⟩
    refine ⟨fun q hq => ?_, List.pairwise_append.2 ⟨hp.apart, hl.apart, hpl⟩⟩
    obtain hq | hq := List.mem_append.1 hq
    · exact hp.nonempty q hq
    · exact hl.nonempty q hq

/-- The end of a list may be replaced by one whose ranges start no lower. -/
theorem Separated.replace (pre) (h : Separated lo hi (pre ++ l)) (h' : Separated lo hi l')
    (above : ∀ r ∈ l', ∃ q ∈ l, lo q ≤ lo r) : Separated lo hi (pre ++ l') := by
  obtain ⟨hp, -, hpl⟩ := separated_append.1 h
  refine separated_append.2 ⟨hp, h', fun r hr q hq => ?_⟩
  obtain ⟨q', hq', hle⟩ := above q hq
  exact (hpl r hr q' hq').trans_le hle

/-- What follows a range is past the number after its end. -/
theorem Separated.lt_of_covers (h : Separated lo hi (r :: l)) (hx : Covers lo hi l x) :
    hi r + 1 < x := by
  obtain ⟨q, hq, hle, -⟩ := hx
  exact ((separated_cons.1 h).2.1 q hq).trans_le hle

/-- An interval that is covered lies in one range. -/
theorem Separated.exists_range (h : Separated lo hi l) (hn : 0 < n)
    (hc : ∀ x, b ≤ x → x < b + n → Covers lo hi l x) :
    ∃ r ∈ l, lo r ≤ b ∧ b + n ≤ hi r + 1 := by
  induction l with
  | nil => simpa using hc b le_rfl (by omega)
  | cons r l ih =>
    obtain ⟨hr, hap, hl⟩ := separated_cons.1 h
    by_cases hb : hi r < b
    · obtain ⟨q, hq, hin⟩ := ih hl fun x hx hlt => by
        have := hc x hx hlt
        rw [covers_cons] at this
        exact this.resolve_left (by omega)
      exact ⟨q, List.mem_cons_of_mem _ hq, hin⟩
    · have hstart : lo r ≤ b := by
        obtain hin | hin := covers_cons.1 (hc b le_rfl (by omega))
        · exact hin.1
        · have := h.lt_of_covers hin
          omega
      refine ⟨r, List.mem_cons_self, hstart, ?_⟩
      by_contra hlt
      obtain hin | hin := covers_cons.1 (hc (hi r + 1) (by omega) (by omega))
      · omega
      · have := h.lt_of_covers hin
        omega

/-- The lengths fit between the bounds of the ranges. -/
theorem Separated.total_le {start stop : ℕ} (h : Separated lo hi l) (hse : start ≤ stop)
    (hlo : ∀ r ∈ l, start ≤ lo r) (hhi : ∀ r ∈ l, hi r < stop) :
    total lo hi l + start ≤ stop := by
  induction l generalizing start with
  | nil => simpa using hse
  | cons r l ih =>
    obtain ⟨hr, hap, hl⟩ := separated_cons.1 h
    have := hlo r (by simp)
    have := ih hl (hhi r (by simp)) (fun q hq => (hap q hq).le.trans' (by omega))
      (fun q hq => hhi q (by simp [hq]))
    rw [total_cons]
    omega

theorem Separated.total_le_of_lt {stop : ℕ} (h : Separated lo hi l)
    (hhi : ∀ r ∈ l, hi r < stop) : total lo hi l ≤ stop :=
  h.total_le (Nat.zero_le _) (fun _ _ => Nat.zero_le _) hhi

end Lemmas

end Ranges
