import Mathlib.Algebra.Order.Ring.Int
import Mathlib.Algebra.Order.Ring.Nat
import Mathlib.Data.Nat.Basic
import Mathlib.Logic.Function.Basic
import Mathlib.Order.Basic

/-!
# Byte memory

Memory as a function from addresses to bytes, with little-endian numbers and strings of bytes in
it. A read depends on the bytes of its range alone (`readLE_congr`, `readBytes_congr`), a write
changes no byte outside of its range, and what was written is read back.
-/

namespace Bytes

variable {m m' : ℕ → UInt8} {a x n v : ℕ} {l : List UInt8}

/-- The number in the `n` bytes from `a` on. -/
def readLE (m : ℕ → UInt8) (a : ℕ) : ℕ → ℕ
  | 0 => 0
  | n + 1 => readLE m (a + 1) n * 256 + (m a).toNat

/-- Store a number in the `n` bytes from `a` on; what does not fit is dropped. -/
def writeLE (m : ℕ → UInt8) (a : ℕ) : ℕ → ℕ → ℕ → UInt8
  | 0, _ => m
  | n + 1, v => Function.update (writeLE m (a + 1) n (v / 256)) a (UInt8.ofNat v)

/-- The `n` bytes from `a` on. -/
def readBytes (m : ℕ → UInt8) (a : ℕ) : ℕ → List UInt8
  | 0 => []
  | n + 1 => m a :: readBytes m (a + 1) n

/-- `memcpy` to `a`. -/
def writeBytes (m : ℕ → UInt8) (a : ℕ) : List UInt8 → ℕ → UInt8
  | [] => m
  | b :: l => Function.update (writeBytes m (a + 1) l) a b

theorem readLE_congr (h : ∀ x, a ≤ x → x < a + n → m' x = m x) :
    readLE m' a n = readLE m a n := by
  induction n generalizing a with
  | zero => rfl
  | succ n ih =>
    rw [readLE, readLE, h a le_rfl (by omega), ih fun x hx hlt => h x (by omega) (by omega)]

theorem readBytes_congr (h : ∀ x, a ≤ x → x < a + n → m' x = m x) :
    readBytes m' a n = readBytes m a n := by
  induction n generalizing a with
  | zero => rfl
  | succ n ih =>
    rw [readBytes, readBytes, h a le_rfl (by omega),
      ih fun x hx hlt => h x (by omega) (by omega)]

theorem readLE_lt : readLE m a n < 256 ^ n := by
  induction n generalizing a with
  | zero => simp [readLE]
  | succ n ih =>
    have := ih (a := a + 1)
    have := (m a).toNat_lt
    rw [readLE, Nat.pow_succ]
    omega

@[simp] theorem length_readBytes : (readBytes m a n).length = n := by
  induction n generalizing a with
  | zero => rfl
  | succ n ih => simp [readBytes, ih]

theorem readBytes_succ : readBytes m a (n + 1) = readBytes m a n ++ [m (a + n)] := by
  induction n generalizing a with
  | zero => rfl
  | succ n ih =>
    rw [readBytes, ih, readBytes, List.cons_append, Nat.add_right_comm, Nat.add_assoc]

theorem writeLE_of_outside (h : x < a ∨ a + n ≤ x) : writeLE m a n v x = m x := by
  induction n generalizing a v with
  | zero => rfl
  | succ n ih => rw [writeLE, Function.update_of_ne (by omega), ih (by omega)]

theorem writeBytes_of_outside (h : x < a ∨ a + l.length ≤ x) : writeBytes m a l x = m x := by
  induction l generalizing a with
  | nil => rfl
  | cons b l ih =>
    rw [List.length_cons] at h
    rw [writeBytes, Function.update_of_ne (by omega), ih (by omega)]

theorem readLE_writeLE (h : v < 256 ^ n) : readLE (writeLE m a n v) a n = v := by
  induction n generalizing a v with
  | zero =>
    rw [Nat.pow_zero] at h
    rw [readLE]
    omega
  | succ n ih =>
    rw [Nat.pow_succ] at h
    have htail : readLE (writeLE m a (n + 1) v) (a + 1) n = v / 256 := by
      rw [readLE_congr (m := writeLE m (a + 1) n (v / 256)), ih (by omega)]
      intro x hx _
      rw [writeLE, Function.update_of_ne (by omega)]
    rw [readLE, htail, writeLE, Function.update_self, UInt8.toNat_ofNat']
    omega

theorem readBytes_writeBytes_append (l' : List UInt8) :
    readBytes (writeBytes m a (l ++ l')) a l.length = l := by
  induction l generalizing a with
  | nil => rfl
  | cons b l ih =>
    rw [List.length_cons, readBytes, List.cons_append, writeBytes, Function.update_self,
      readBytes_congr (m := writeBytes m (a + 1) (l ++ l')), ih]
    intro x hx _
    rw [Function.update_of_ne (by omega)]

theorem readBytes_writeBytes : readBytes (writeBytes m a l) a l.length = l := by
  have h := readBytes_writeBytes_append (m := m) (a := a) (l := l) []
  rwa [List.append_nil] at h

theorem writeBytes_last {b : UInt8} : writeBytes m a (l ++ [b]) (a + l.length) = b := by
  induction l generalizing a with
  | nil => exact Function.update_self ..
  | cons c l ih =>
    rw [List.cons_append, writeBytes, Function.update_of_ne (by simp), List.length_cons,
      Nat.add_comm l.length, ← Nat.add_assoc, ih]

end Bytes
