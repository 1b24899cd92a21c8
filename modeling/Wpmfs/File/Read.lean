import Mathlib.Algebra.Order.Ring.Int
import Mathlib.Algebra.Order.Ring.Nat
import Mathlib.Data.List.Range
import Wpmfs.File.Xip

/-!
# What a read returns

A read returns the bytes of the file from the position on, as many as there are, but for one call:
of no bytes at all, at a hole below the size.
-/

namespace Wpmfs.File

variable {f : File} {mem : ℕ → ℕ → UInt8} {isize index offset left pos len n : ℕ}
  {out : List UInt8} {error : Option Error}

/-- A round copies to the end of the page, of the file, or of the request. -/
theorem readBytes_eq (hisize : 0 < isize) (hoffset : offset < 4096) :
    readBytes isize index offset left =
      if isize ≤ index * 4096 + offset then none
      else some (min (min (4096 - offset) (isize - (index * 4096 + offset))) left) := by
  rw [readBytes]
  dsimp only
  split
  · rw [if_pos (by omega)]
  · split
    · split
      · rw [if_pos (by omega)]
      · rw [if_neg (by omega)]
        congr 1
        omega
    · rw [if_neg (by omega), if_neg (by omega)]
      congr 1
      omega

/-- The bytes from the position on. -/
def bytesAt (f : File) (mem : ℕ → ℕ → UInt8) (pos n : ℕ) : List UInt8 :=
  (List.range n).map fun i => contents f mem (pos + i)

@[simp] theorem length_bytesAt : (bytesAt f mem pos n).length = n := by simp [bytesAt]

theorem bytesAt_add (m : ℕ) :
    bytesAt f mem pos (n + m) = bytesAt f mem pos n ++ bytesAt f mem (pos + n) m := by
  simp only [bytesAt, List.range_add, List.map_append, List.map_map]
  congr 1
  refine List.map_congr_left fun i _ => ?_
  rw [Function.comp_apply, Nat.add_assoc]

/-- Inside of a page the bytes are those of its block. -/
theorem bytesAt_page (index : ℕ) (hn : offset + n ≤ 4096) : bytesAt f mem (index * 4096 + offset) n =
    (List.range n).map fun i => (readPage f mem index).1 (offset + i) := by
  refine List.map_congr_left fun i hi => ?_
  have hi := List.mem_range.mp hi
  rw [contents, readPage, show (index * 4096 + offset + i) / 4096 = index by omega,
    show (index * 4096 + offset + i) % 4096 = offset + i by omega]
  cases pmfsFindDataBlock f index <;> rfl

/-- What is copied in all, if `c` bytes are copied before the round. There are rounds enough. -/
theorem xipReadLoop_out {c : ℕ} (hisize : 0 < f.iSize) (hoffset : offset < 4096)
    (hpos : index * 4096 + offset = pos + c) (hc : c ≤ min len (f.iSize - pos))
    (hn : f.iSize ≤ pos + c ∨ len - c + offset ≤ n * 4096) :
    (xipReadLoop f mem len n index offset (bytesAt f mem pos c) error).1 =
      bytesAt f mem pos (min len (f.iSize - pos)) := by
  induction n generalizing index offset c error with
  | zero =>
    rw [xipReadLoop, show c = min len (f.iSize - pos) by omega]
  | succ n ih =>
    rw [xipReadLoop, readBytes_eq hisize hoffset, length_bytesAt]
    by_cases hend : f.iSize ≤ index * 4096 + offset
    · rw [if_pos hend]
      rw [show c = min len (f.iSize - pos) by omega]
    · rw [if_neg hend]
      generalize hnr : min (min (4096 - offset) (f.iSize - (index * 4096 + offset))) (len - c) = nr
      have hpage : bytesAt f mem (index * 4096 + offset) nr = _ := bytesAt_page index (by omega)
      have hnext : (index + (offset + nr) / 4096) * 4096 + (offset + nr) % 4096 =
          pos + (c + nr) := by
        rw [Nat.add_mul, Nat.add_assoc, Nat.div_add_mod', ← Nat.add_assoc, hpos, Nat.add_assoc]
      dsimp only
      rw [← hpage, hpos, ← bytesAt_add, length_bytesAt]
      split
      · exact ih (Nat.mod_lt _ (by decide)) hnext (by omega) (by omega)
      · rw [show c + nr = min len (f.iSize - pos) by omega]

/-- A read of nothing is one round. -/
theorem xipReadLoop_nothing (mem : ℕ → ℕ → UInt8) (hisize : 0 < f.iSize) (hoffset : offset < 4096)
    (hzero : min len (f.iSize - (index * 4096 + offset)) = 0) :
    (xipReadLoop f mem len (n + 1) index offset [] none).2 =
      if f.iSize ≤ index * 4096 + offset then none else (readPage f mem index).2 := by
  rw [xipReadLoop, readBytes_eq hisize hoffset]
  by_cases hend : f.iSize ≤ index * 4096 + offset
  · rw [if_pos hend, if_pos hend]
  · obtain rfl : len = 0 := by omega
    rw [if_neg hend, if_neg hend]
    simp

/-- The call returns the bytes that there are, and no error. -/
def Reads (f : File) (mem : ℕ → ℕ → UInt8) (pos len : ℕ) : Prop :=
  doXipMappingRead f mem pos len =
    { ret := .ok (min len (f.iSize - pos))
      ppos := pos + min len (f.iSize - pos)
      out := bytesAt f mem pos (min len (f.iSize - pos)) }

end Wpmfs.File
