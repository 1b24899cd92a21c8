import Wpmfs.Balloc.Bins

/-!
# The bin of a freed block

`pmfs_fill_super` makes one bin for each threshold below the cell endurance, and one for the worn
out blocks. `wpmfs_get_bin` counts the thresholds that a block has passed as an `int`: from
`2 ^ 31` of them on the count is negative or starts again from 0.
-/

namespace Wpmfs.Balloc

/-- `get_cell_endurance`: the shift is the one of `get_int_thres_size`. -/
def getCellEndurance (power : Nat) : Nat := getIntThresSize power

/-- `num_bins`, an `int`, as `pmfs_fill_super` computes it. -/
def numBins (thres endur : Nat) : Int :=
  toInt (getCellEndurance endur * 4096 % 2 ^ 64 / getIntThresSize thres + 1)

/-- `block_bins` as `pmfs_fill_super` sets it up, if `kmalloc_array` finds memory for so many list
heads; the number is a `size_t` there. -/
def initBins (kmallocArray : Nat → Bool) (thres endur : Nat) : Option (List (List Nat)) :=
  if kmallocArray (numBins thres endur % 2 ^ 64).toNat
    then some (List.replicate (numBins thres endur).toNat [])
  else none

namespace BinAlloc

/-- A block with the count `cnt` goes to a bin of its own wear: an index of the array, no lower
than that of a block with fewer writes, and the last one just when the cells are worn out. -/
structure Retires (s : BinAlloc) (thres endur : Nat) (cnt : UInt64) : Prop where
  nonneg : 0 ≤ s.wpmfsGetBin thres cnt
  lt : s.wpmfsGetBin thres cnt < s.blockBins.length
  mono : ∀ c ≤ cnt, s.wpmfsGetBin thres c ≤ s.wpmfsGetBin thres cnt
  last : s.wpmfsGetBin thres cnt = s.blockBins.length - 1 ↔
    getCellEndurance endur * 4096 ≤ cnt.toNat

end BinAlloc

variable {thres endur : Nat} {s : BinAlloc} {cnt : UInt64} {kmallocArray : Nat → Bool}
  {bins : List (List Nat)}

/-! ## The number of bins -/

theorem toInt_eq (n : Nat) : toInt n =
    if n % 2 ^ 32 < 2 ^ 31 then ((n % 2 ^ 32 : Nat) : Int)
    else ((n % 2 ^ 32 : Nat) : Int) - (2 ^ 32 : Nat) := by
  unfold toInt
  simp only [Int.bmod_def]
  split <;> split <;> omega

theorem toInt_of_lt {n : Nat} (h : n < 2 ^ 31) : toInt n = n := by
  have := toInt_eq n
  split at this <;> omega

theorem toInt_bounds (n : Nat) : -2 ^ 31 ≤ toInt n ∧ toInt n < 2 ^ 31 := by
  have := toInt_eq n
  split at this <;> omega

/-- An array that `kmalloc_array` gives has `num_bins` bins: a negative number is too much. -/
theorem length_of_initBins (hk : ∀ n, kmallocArray n = true → n * 16 < 2 ^ 64)
    (h : initBins kmallocArray thres endur = some bins) :
    (bins.length : Int) = numBins thres endur := by
  unfold initBins at h
  split at h
  case isTrue hmem =>
    have hfew := hk _ hmem
    have hbounds : -2 ^ 31 ≤ numBins thres endur ∧ numBins thres endur < 2 ^ 31 := toInt_bounds _
    obtain rfl := Option.some.inj h
    simp only [List.length_replicate]
    omega
  case isFalse => cases h

/-- The sizes are powers of two, or the `int` that is negative. -/
theorem getIntThresSize_cases (power : Nat) :
    (∃ k ≤ 30, getIntThresSize power = 2 ^ k) ∨ getIntThresSize power = 2 ^ 64 - 2 ^ 31 := by
  unfold getIntThresSize
  split
  · exact .inr rfl
  · exact .inl ⟨power % 32, by omega, rfl⟩

/-- The `int` that a power of two and 1 gives. -/
theorem toInt_two_pow_succ (m : Nat) : toInt (2 ^ m + 1) < 0 ∨ toInt (2 ^ m + 1) = 1 ∨
    toInt (2 ^ m + 1) = (2 ^ m : Nat) + 1 := by
  rcases Nat.lt_trichotomy m 31 with hlt | rfl | hgt
  · have hle : 2 ^ m ≤ 2 ^ 30 := Nat.pow_le_pow_right (by omega) (by omega)
    exact .inr (.inr (toInt_of_lt (by omega)))
  · exact .inl (by decide)
  · have hmod : 2 ^ m % 2 ^ 32 = 0 := Nat.mod_eq_zero_of_dvd (Nat.pow_dvd_pow 2 hgt)
    have := toInt_eq (2 ^ m + 1)
    refine .inr (.inl ?_)
    split at this <;> omega

/-- More than one bin are the bins up to the endurance, and the last one. -/
theorem numBins_cases (thres endur : Nat) : numBins thres endur < 0 ∨ numBins thres endur = 1 ∨
    ∃ q : Nat, numBins thres endur = q + 1 ∧ 1 ≤ q ∧
      getCellEndurance endur * 4096 = q * getIntThresSize thres := by
  unfold numBins getCellEndurance
  rcases getIntThresSize_cases endur with ⟨j, hj, hE⟩ | hE
  · have hlt : 2 ^ (j + 12) < 2 ^ 64 := Nat.pow_lt_pow_right (by omega) (by omega)
    have hprod : 2 ^ j * 4096 = 2 ^ (j + 12) := by rw [Nat.pow_add]
    rw [hE, hprod, Nat.mod_eq_of_lt hlt]
    rcases getIntThresSize_cases thres with ⟨k, hk, hT⟩ | hT
    · rw [hT]
      rcases Nat.lt_or_ge (j + 12) k with hsmall | hle
      · rw [Nat.div_eq_of_lt (Nat.pow_lt_pow_right (by omega) hsmall)]
        exact .inr (.inl (by decide))
      · rw [Nat.pow_div hle (by decide)]
        rcases toInt_two_pow_succ (j + 12 - k) with hneg | hone | hfits
        · exact .inl hneg
        · exact .inr (.inl hone)
        · refine .inr (.inr ⟨2 ^ (j + 12 - k), hfits, Nat.one_le_two_pow, ?_⟩)
          rw [← Nat.pow_add, Nat.sub_add_cancel hle]
    · have hbound : 2 ^ (j + 12) < 2 ^ 43 := Nat.pow_lt_pow_right (by omega) (by omega)
      rw [hT, Nat.div_eq_of_lt (by omega)]
      exact .inr (.inl (by decide))
  · rw [hE]
    rcases getIntThresSize_cases thres with ⟨k, hk, hT⟩ | hT
    · rw [hT]
      have hall : ∀ k < 31, toInt ((2 ^ 64 - 2 ^ 31) * 4096 % 2 ^ 64 / 2 ^ k + 1) < 0 ∨
          toInt ((2 ^ 64 - 2 ^ 31) * 4096 % 2 ^ 64 / 2 ^ k + 1) = 1 := by decide
      exact (hall k (by omega)).imp_right .inl
    · rw [hT]
      exact .inr (.inl (by decide))

/-! ## The bin of a count -/

theorem wpmfsGetBin_cases (s : BinAlloc) (thres : Nat) (cnt : UInt64) :
    toInt (cnt.toNat / getIntThresSize thres) < s.blockBins.length ∧
      s.wpmfsGetBin thres cnt = toInt (cnt.toNat / getIntThresSize thres) ∨
    s.blockBins.length ≤ toInt (cnt.toNat / getIntThresSize thres) ∧
      s.wpmfsGetBin thres cnt = s.blockBins.length - 1 := by
  simp only [BinAlloc.wpmfsGetBin]
  split <;> omega

/-- Up to `2 ^ 31` thresholds the count is one of the thresholds passed; after that, only what looks
like a worn out block goes to no lower bin than blocks with fewer writes. -/
theorem wpmfsGetBin_mono_iff (hpos : 0 < s.blockBins.length) (hlen : s.blockBins.length < 2 ^ 31) :
    (0 ≤ s.wpmfsGetBin thres cnt ∧ ∀ c ≤ cnt, s.wpmfsGetBin thres c ≤ s.wpmfsGetBin thres cnt) ↔
      (cnt.toNat / getIntThresSize thres < 2 ^ 31 ∨
        s.blockBins.length - 1 ≤ toInt (cnt.toNat / getIntThresSize thres)) := by
  have hsize := getIntThresSize_pos thres
  have hbin := wpmfsGetBin_cases s thres cnt
  constructor
  · rintro ⟨hnonneg, hmono⟩
    by_contra hbad
    obtain ⟨hmany, hlow⟩ := not_or.1 hbad
    -- a block at the last threshold below `2 ^ 31` is in the last bin
    have hle : (2 ^ 31 - 1) * getIntThresSize thres ≤ cnt.toNat :=
      (Nat.le_div_iff_mul_le hsize).1 (by omega)
    have hc : (UInt64.ofNat ((2 ^ 31 - 1) * getIntThresSize thres)).toNat =
        (2 ^ 31 - 1) * getIntThresSize thres := by
      have hlt : (2 ^ 31 - 1) * getIntThresSize thres < 2 ^ 64 := hle.trans_lt cnt.toNat_lt
      simpa using hlt
    have hless := hmono _ (UInt64.le_iff_toNat_le.2 (hc ▸ hle))
    have hc' := wpmfsGetBin_cases s thres (UInt64.ofNat ((2 ^ 31 - 1) * getIntThresSize thres))
    rw [hc, Nat.mul_div_cancel _ hsize, toInt_of_lt (by decide)] at hc'
    omega
  · intro hwrap
    have hnonneg : 0 ≤ s.wpmfsGetBin thres cnt := by
      rcases hwrap with hfew | hlast
      · rw [toInt_of_lt hfew] at hbin
        have := Int.natCast_nonneg (cnt.toNat / getIntThresSize thres)
        omega
      · omega
    refine ⟨hnonneg, fun c hc => ?_⟩
    have hc' := wpmfsGetBin_cases s thres c
    rcases hwrap with hfew | hlast
    · have hdiv : c.toNat / getIntThresSize thres ≤ cnt.toNat / getIntThresSize thres :=
        Nat.div_le_div_right (UInt64.le_iff_toNat_le.1 hc)
      have := toInt_of_lt hfew
      have := toInt_of_lt (hdiv.trans_lt hfew)
      omega
    · omega

/-- The bin of a freed block is in range, monotone and exact at the endurance just when there are
bins below the last one, or the cells are worn out anyway, and the `int` of the thresholds passed
did not wrap, or wrapped to the last bin. -/
theorem retires_iff (hk : ∀ n, kmallocArray n = true → n * 16 < 2 ^ 64)
    (h : initBins kmallocArray thres endur = some bins)
    (hlen : s.blockBins.length = bins.length) :
    s.Retires thres endur cnt ↔
      (1 < numBins thres endur ∨ getCellEndurance endur * 4096 ≤ cnt.toNat) ∧
      (cnt.toNat / getIntThresSize thres < 2 ^ 31 ∨
        numBins thres endur - 1 ≤ toInt (cnt.toNat / getIntThresSize thres)) := by
  have hbins : (s.blockBins.length : Int) = numBins thres endur :=
    hlen ▸ length_of_initBins hk h
  have hbounds : numBins thres endur < 2 ^ 31 := (toInt_bounds _).2
  have hpos : 0 < s.blockBins.length := by
    rcases numBins_cases thres endur with hneg | hone | ⟨q, hq, -⟩ <;> omega
  have hmono := @wpmfsGetBin_mono_iff thres s cnt hpos (by omega)
  have hsize := getIntThresSize_pos thres
  have hle : s.wpmfsGetBin thres cnt ≤ s.blockBins.length - 1 := by
    have := wpmfsGetBin_cases s thres cnt
    omega
  rw [← hbins]
  -- what is left is the last bin
  have hlast (hwrap : cnt.toNat / getIntThresSize thres < 2 ^ 31 ∨
      s.blockBins.length - 1 ≤ toInt (cnt.toNat / getIntThresSize thres)) :
      (s.wpmfsGetBin thres cnt = s.blockBins.length - 1 ↔
        getCellEndurance endur * 4096 ≤ cnt.toNat) ↔
      (1 < (s.blockBins.length : Int) ∨ getCellEndurance endur * 4096 ≤ cnt.toNat) := by
    have hnonneg := (hmono.2 hwrap).1
    rcases numBins_cases thres endur with hneg | hone | ⟨q, hq, hone, hE⟩
    · omega
    · have hzero : s.wpmfsGetBin thres cnt = s.blockBins.length - 1 := by omega
      simp [hzero, hbins, hone]
    · refine iff_of_true ?_ (.inl (by omega))
      have hbin := wpmfsGetBin_cases s thres cnt
      rw [hE, ← Nat.le_div_iff_mul_le hsize]
      rcases hwrap with hfew | hlast
      · have := toInt_of_lt hfew
        omega
      · have hint := toInt_eq (cnt.toNat / getIntThresSize thres)
        generalize cnt.toNat / getIntThresSize thres = x at hint hlast hbin ⊢
        split at hint <;> omega
  constructor
  · intro hr
    have hwrap := hmono.1 ⟨hr.nonneg, hr.mono⟩
    exact ⟨(hlast hwrap).1 hr.last, hwrap⟩
  · rintro ⟨hmany, hwrap⟩
    obtain ⟨hnonneg, hmono'⟩ := hmono.2 hwrap
    exact ⟨hnonneg, by omega, hmono', (hlast hwrap).2 hmany⟩

/-- With the default options a block of a million writes is not worn out yet: its bin is one of
those that are searched. -/
theorem retires_default : ∃ s : BinAlloc, s.Retires 17 20 1000000 := by
  have hk : ∀ n, decide (n * 16 < 2 ^ 64) = true → n * 16 < 2 ^ 64 := fun n h => of_decide_eq_true h
  have hsome : initBins (fun n => decide (n * 16 < 2 ^ 64)) 17 20 =
      some (List.replicate 32769 []) := by
    unfold initBins
    have hnum : numBins 17 20 = 32769 := by decide
    rw [hnum]
    exact if_pos (by decide)
  have hnum : numBins 17 20 = 32769 := by decide
  let s : BinAlloc := ⟨0, 0, 0, 0, 0, List.replicate 32769 [], fun _ => {}⟩
  exact ⟨s, (retires_iff hk hsome rfl).2 ⟨.inl (by rw [hnum]; decide), .inl (by decide)⟩⟩

/-- With the default options a block of `2 ^ 48` writes has passed `2 ^ 31` thresholds, and its bin
is the one of index `-2 ^ 31`. -/
theorem not_retires_2_48 : ¬∀ (kmallocArray : Nat → Bool) (thres endur : Nat)
    (bins : List (List Nat)) (s : BinAlloc) (cnt : UInt64),
    (∀ n, kmallocArray n = true → n * 16 < 2 ^ 64) → 12 ≤ thres →
    initBins kmallocArray thres endur = some bins → s.blockBins.length = bins.length →
    s.Retires thres endur cnt := by
  intro h
  have hnum : numBins 17 20 = 32769 := by decide
  have hsome : initBins (fun n => decide (n * 16 < 2 ^ 64)) 17 20 =
      some (List.replicate 32769 []) := by
    unfold initBins
    rw [hnum]
    exact if_pos (by decide)
  have hbin := wpmfsGetBin_cases ⟨0, 0, 0, 0, 0, List.replicate 32769 [], fun _ => {}⟩ 17 (2 ^ 48)
  have hnonneg := (h _ 17 20 _ ⟨0, 0, 0, 0, 0, List.replicate 32769 [], fun _ => {}⟩ (2 ^ 48)
    (fun n hn => of_decide_eq_true hn) (by decide) hsome rfl).nonneg
  have hint : toInt ((2 ^ 48 : UInt64).toNat / getIntThresSize 17) = -2 ^ 31 := by decide
  omega

end Wpmfs.Balloc
