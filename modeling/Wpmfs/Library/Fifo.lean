import Mathlib.Algebra.Order.Ring.Int
import Mathlib.Algebra.Order.Ring.Nat
import Mathlib.Data.List.Basic
import Mathlib.Data.Nat.Basic

/-!
# Records in a queue of bytes

A bounded queue of bytes takes as much of a buffer as it has room for, and gives as much as it has.
Where records of one size go in and out, and the capacity is a multiple of that size, no record is
ever torn: the queue of bytes is a queue of records (`Record.Holds.put`, `Record.Holds.get`).
-/

namespace Fifo

variable {α ρ : Type}

/-- What fits of a buffer goes in. The number is how much that was. -/
def put (cap : ℕ) (buf q : List α) : ℕ × List α :=
  (min buf.length (cap - q.length), q ++ buf.take (cap - q.length))

/-- The first `n` come out, or all that are there. -/
def get (n : ℕ) (q : List α) : List α × List α := (q.take n, q.drop n)

/-- Values that are stored in `n` symbols each. -/
structure Record (α ρ : Type) (n : ℕ) where
  encode : ρ → List α
  decode : List α → ρ
  length_encode : ∀ r, (encode r).length = n
  decode_encode : ∀ r, decode (encode r) = r

namespace Record

variable {n cap : ℕ} {c : Record α ρ n} {q : List α} {rs : List ρ} {r : ρ}

/-- A queue with these records in it, the oldest one first. -/
def Holds (c : Record α ρ n) (q : List α) (rs : List ρ) : Prop := q = rs.flatMap c.encode

theorem holds_nil : c.Holds [] [] := rfl

theorem Holds.length (h : c.Holds q rs) : q.length = rs.length * n := by
  subst h
  induction rs with
  | nil => rw [List.flatMap_nil, List.length_nil, List.length_nil, Nat.zero_mul]
  | cons r rs ih =>
    rw [List.flatMap_cons, List.length_append, c.length_encode, ih, List.length_cons,
      Nat.succ_mul, Nat.add_comm]

/-- A queue holds its records in one way. -/
theorem Holds.nil_iff (h : c.Holds q rs) (hn : 0 < n) : q = [] ↔ rs = [] := by
  rw [← List.length_eq_zero_iff, h.length, Nat.mul_eq_zero, List.length_eq_zero_iff]
  exact or_iff_left hn.ne'

/-- A record goes in whole, or there is no room for a part of it either. -/
theorem Holds.put (h : c.Holds q rs) (hle : rs.length ≤ cap) (r : ρ) :
    (rs.length < cap ∧ (Fifo.put (cap * n) (c.encode r) q).1 = n ∧
      c.Holds (Fifo.put (cap * n) (c.encode r) q).2 (rs ++ [r])) ∨
    (rs.length = cap ∧ Fifo.put (cap * n) (c.encode r) q = (0, q)) := by
  have hroom : cap * n - q.length = (cap - rs.length) * n := by
    rw [h.length, ← Nat.sub_mul]
  rcases Nat.lt_or_eq_of_le hle with hlt | heq
  · have hfits : n ≤ (cap - rs.length) * n := Nat.le_mul_of_pos_left n (by omega)
    left
    rw [Fifo.put, hroom, c.length_encode]
    refine ⟨hlt, min_eq_left hfits, ?_⟩
    rw [List.take_of_length_le (by rwa [c.length_encode]), Holds, List.flatMap_append,
      List.flatMap_singleton, ← h]
  · right
    rw [Fifo.put, hroom, heq, Nat.sub_self, Nat.zero_mul, Nat.min_zero, List.take_zero,
      List.append_nil]
    exact ⟨rfl, rfl⟩

/-- The oldest record comes out whole. -/
theorem Holds.get (h : c.Holds q (r :: rs)) :
    (Fifo.get n q).1 = c.encode r ∧ c.Holds (Fifo.get n q).2 rs := by
  rw [Holds, List.flatMap_cons] at h
  subst h
  exact ⟨List.take_left' (c.length_encode r), List.drop_left' (c.length_encode r)⟩

end Record

/-! ## Numbers as records of bytes -/

/-- The lowest `n` bytes of a number, the lowest first. -/
def encodeLE : (n : ℕ) → ℕ → List UInt8
  | 0, _ => []
  | n + 1, v => UInt8.ofNat v :: encodeLE n (v / 256)

def decodeLE : List UInt8 → ℕ
  | [] => 0
  | b :: l => decodeLE l * 256 + b.toNat

theorem length_encodeLE (n v : ℕ) : (encodeLE n v).length = n := by
  induction n generalizing v with
  | zero => rfl
  | succ n ih => rw [encodeLE, List.length_cons, ih]

theorem decodeLE_encodeLE {n v : ℕ} (h : v < 256 ^ n) : decodeLE (encodeLE n v) = v := by
  induction n generalizing v with
  | zero =>
    rw [Nat.pow_zero] at h
    rw [encodeLE, decodeLE]
    omega
  | succ n ih =>
    rw [Nat.pow_succ] at h
    rw [encodeLE, decodeLE, ih (by omega), UInt8.toNat_ofNat']
    omega

/-- Words of 64 bits. -/
def word : Record UInt8 UInt64 8 where
  encode x := encodeLE 8 x.toNat
  decode l := UInt64.ofNat (decodeLE l)
  length_encode _ := length_encodeLE ..
  decode_encode x := by
    rw [decodeLE_encodeLE x.toNat_lt, UInt64.ofNat_toNat]

end Fifo
