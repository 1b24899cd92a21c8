import Mathlib.Algebra.Order.Ring.Int
import Mathlib.Algebra.Order.Ring.Nat
import Mathlib.Data.Set.Lattice
import Mathlib.Order.CompletePartialOrder
import Mathlib.Order.Interval.Set.Basic

/-!
# The counter file

`pmfs_get_block_info` takes the end of the device for the write counters, 8 bytes for each block of
what is left to the file system. Addresses are relative to `virt_addr`. The size of a device is a
`long`, and nothing of what is computed from it wraps.
-/

namespace Wpmfs.Counter

/-- What `pmfs_get_block_info` sets. -/
structure BlockInfo where
  initsize : ℕ
  /-- `_wt_cnter_file.base`. -/
  base : ℕ
  /-- `_wt_cnter_file.size`. -/
  size : ℕ

/-- `pmfs_get_block_info`, for a device of `size` bytes. -/
def pmfsGetBlockInfo (size : ℕ) : BlockInfo :=
  let cnterSize := (size / (8 + 4096) * 8 + 4096 - 1) / 4096 * 4096
  { initsize := size - cnterSize, base := size - cnterSize, size := cnterSize }

namespace BlockInfo

variable (info : BlockInfo)

/-- The bytes of the file-system area. -/
def area : Set ℕ := Set.Ico 0 info.initsize

/-- The bytes of the counter file. -/
def file : Set ℕ := Set.Ico info.base (info.base + info.size)

/-- The bytes of the counter that `wt_cnter_read_blocknr` reads. -/
def cnter (blocknr : ℕ) : Set ℕ := Set.Ico (info.base + 8 * blocknr) (info.base + 8 * blocknr + 8)

/-- The area and the counter file share out a device of `size` bytes, and each block has its
counter. -/
structure Fits (size : ℕ) : Prop where
  aligned : 4096 ∣ info.initsize ∧ 4096 ∣ info.base ∧ 4096 ∣ info.size
  disjoint : Disjoint info.area info.file
  fill : info.area ∪ info.file = Set.Iio size
  cnter : ∀ blocknr < info.initsize / 4096, info.cnter blocknr ⊆ info.file

end BlockInfo

open BlockInfo

variable {n : ℕ}

/-- The pages of the counter file: one for each 513 pages of the device, and one for the rest
unless that is a single page. -/
theorem pmfsGetBlockInfo_size (n : ℕ) :
    (pmfsGetBlockInfo (4096 * n)).size = (n + 511) / 513 * 4096 := by
  simp only [pmfsGetBlockInfo]
  omega

theorem pmfsGetBlockInfo_initsize (n : ℕ) :
    (pmfsGetBlockInfo (4096 * n)).initsize = (n - (n + 511) / 513) * 4096 := by
  have hsize := pmfsGetBlockInfo_size n
  simp only [pmfsGetBlockInfo] at hsize ⊢
  omega

theorem pmfsGetBlockInfo_base (size : ℕ) :
    (pmfsGetBlockInfo size).base = (pmfsGetBlockInfo size).initsize := rfl

theorem le_pages (hrest : n % 513 ≠ 1) : n ≤ 513 * ((n + 511) / 513) := by
  rcases Nat.eq_zero_or_pos (n % 513) with hzero | hpos
  · have hq : (n + 511) / 513 = n / 513 := by omega
    omega
  · have hq : (n + 511) / 513 = n / 513 + 1 := by omega
    omega

/-- Each block has its counter when the blocks are at most 512 for each page of counters. -/
theorem cnter_subset_iff (n : ℕ) :
    (∀ blocknr < (pmfsGetBlockInfo (4096 * n)).initsize / 4096,
      (pmfsGetBlockInfo (4096 * n)).cnter blocknr ⊆ (pmfsGetBlockInfo (4096 * n)).file) ↔
      n % 513 ≠ 1 := by
  have hinit := pmfsGetBlockInfo_initsize n
  have hsize := pmfsGetBlockInfo_size n
  have hbase := pmfsGetBlockInfo_base (4096 * n)
  constructor
  · intro h hone
    -- the last block is one too many
    have hlast := h ((n + 511) / 513 * 512) (by omega)
    have hmem : (pmfsGetBlockInfo (4096 * n)).base + 8 * ((n + 511) / 513 * 512) ∈
        (pmfsGetBlockInfo (4096 * n)).cnter ((n + 511) / 513 * 512) :=
      Set.mem_Ico.2 ⟨le_rfl, by omega⟩
    have := (Set.mem_Ico.1 (hlast hmem)).2
    omega
  · intro hrest blocknr hb x hx
    have hle := le_pages hrest
    obtain ⟨hle, hlt⟩ := Set.mem_Ico.1 hx
    exact Set.mem_Ico.2 ⟨by omega, by omega⟩

/-- Where the device is one page more than a multiple of 513 pages, there is one block more than
counters. -/
theorem pmfsGetBlockInfo_fits_iff (n : ℕ) :
    (pmfsGetBlockInfo (4096 * n)).Fits (4096 * n) ↔ n % 513 ≠ 1 := by
  have hinit := pmfsGetBlockInfo_initsize n
  have hsize := pmfsGetBlockInfo_size n
  have hbase := pmfsGetBlockInfo_base (4096 * n)
  refine ⟨fun h => (cnter_subset_iff n).1 h.cnter, fun hrest => ⟨?_, ?_, ?_, ?_⟩⟩
  · rw [hbase, hinit, hsize]
    exact ⟨Nat.dvd_mul_left _ _, Nat.dvd_mul_left _ _, Nat.dvd_mul_left _ _⟩
  · rw [Set.disjoint_left]
    intro x hx hx'
    have := (Set.mem_Ico.1 hx).2
    have := (Set.mem_Ico.1 hx').1
    omega
  · ext x
    simp only [area, file, Set.mem_union, Set.mem_Ico, Set.mem_Iio]
    omega
  · exact (cnter_subset_iff n).2 hrest

/-- A device of one page is all file-system area: its block has no counter. -/
theorem not_fits_onePage : ¬ ∀ n, 0 < n → (pmfsGetBlockInfo (4096 * n)).Fits (4096 * n) := by
  intro h
  have hcnter := (h 1 Nat.one_pos).cnter 0 (by decide)
  have hmem : 4096 ∈ (pmfsGetBlockInfo (4096 * 1)).file := hcnter ⟨le_rfl, by decide⟩
  exact absurd hmem.2 (by decide)

end Wpmfs.Counter
