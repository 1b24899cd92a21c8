import Mathlib.Algebra.BigOperators.Group.Finset.Basic
import Mathlib.Algebra.Order.Ring.Int
import Mathlib.Algebra.Order.Ring.Nat
import Mathlib.Data.Nat.Count
import Wpmfs.Counter.Add

/-!
# Writes that span pages

`wt_cnter_track_addr` splits a write at the page boundaries. The first page gets what is left of
it; the last page gets what follows the offset of the first share, which is the offset of the
address and not the end of the write.
-/

namespace Wpmfs.Counter

/-- `PAGE_MASK`. -/
def pageMask : UInt64 := ~~~(UInt64.ofNat (2 ^ 12) - 1)

/-- `~PAGE_MASK`. -/
def pageOffset : UInt64 := UInt64.ofNat (2 ^ 12) - 1

section Loop

variable {σ : Type} (track : σ → UInt64 → UInt64 → σ) (addr cnt : UInt64)

/-- `sub_cnt` for the page `addrT`. -/
def subCnt (addrT : UInt64) : UInt64 :=
  let first := if addrT = addr &&& pageMask then 4096 - (addr &&& pageOffset) else 4096
  if addrT = (addr + cnt) &&& pageMask then (addr + first) &&& pageOffset else first

/-- The loop over the pages from `addrT` on, which `track` counts one by one. `none` is a loop that
has not ended after `fuel` turns. -/
def trackPages : (fuel : ℕ) → (addrT : UInt64) → σ → Option σ
  | 0, _, _ => none
  | fuel + 1, addrT, s =>
    if addrT < addr + cnt then
      trackPages fuel (addrT + 4096) (track s addrT (subCnt addr cnt addrT))
    else some s

/-- What `wt_cnter_track_addr` and `wt_cnter_track_addr_intless` share. -/
def trackAddr (fuel : ℕ) (s : σ) : Option σ :=
  if (addr &&& pageOffset) + cnt ≤ 4096 then some (track s addr cnt)
  else trackPages track addr cnt fuel (addr &&& pageMask) s

end Loop

/-- The counters and the calls of `wpmfs_int_top`, the latest first. -/
structure Tracker where
  cnters : Counters
  intTop : List ℕ

/-- `wt_cnter_track_pfn`. -/
def wtCnterTrackPfn (power : ℕ) (s : Tracker) (pfn : ℕ) (cnt : UInt64) : Tracker :=
  let (signal, cnters) := wtCnterAdd power s.cnters pfn cnt
  { cnters, intTop := if signal then pfn :: s.intTop else s.intTop }

/-- `wt_cnter_track_pfn_intless`, as `wt_cnter_track_addr_intless` collects its results. -/
def wtCnterTrackPfnIntless (power : ℕ) (s : Bool × Counters) (pfn : ℕ) (cnt : UInt64) :
    Bool × Counters :=
  let (signal, cnters) := wtCnterAdd power s.2 pfn cnt
  (s.1 || signal, cnters)

/-- `wt_cnter_track_addr`. The frame behind a virtual page is `pfnOf` of the number of the page:
both `vmalloc_to_pfn` and `virt_to_phys` translate whole pages. -/
def wtCnterTrackAddr (power : ℕ) (pfnOf : ℕ → ℕ) (fuel : ℕ) (s : Tracker) (addr cnt : UInt64) :
    Option Tracker :=
  trackAddr (fun s a n => wtCnterTrackPfn power s (pfnOf (a.toNat / 4096)) n) addr cnt fuel s

/-- `wt_cnter_track_addr_intless`. -/
def wtCnterTrackAddrIntless (power : ℕ) (pfnOf : ℕ → ℕ) (fuel : ℕ) (cnters : Counters)
    (addr cnt : UInt64) : Option (Bool × Counters) :=
  trackAddr (fun s a n => wtCnterTrackPfnIntless power s (pfnOf (a.toNat / 4096)) n) addr cnt fuel
    (false, cnters)

/-! ## What is to be counted -/

/-- The number of bytes among the `n` from `x` on that lie in pages of the frame `pfn`. -/
def bytesOn (pfnOf : ℕ → ℕ) (pfn x n : ℕ) : ℕ := Nat.count (fun i => pfnOf ((x + i) / 4096) = pfn) n

/-- The frames of the `n` bytes from `x` on. -/
def framesOf (pfnOf : ℕ → ℕ) (x n : ℕ) : Finset ℕ :=
  (Finset.range n).image fun i => pfnOf ((x + i) / 4096)

/-- From `cnters` to `new` each counter grew by the bytes of its frame among the `cnt` bytes from
`addr` on: by `cnt` in all, and no other counter changed. -/
structure Counted (pfnOf : ℕ → ℕ) (addr cnt : UInt64) (cnters new : Counters) : Prop where
  bytes : ∀ pfn, new pfn = cnters pfn + UInt64.ofNat (bytesOn pfnOf pfn addr.toNat cnt.toNat)
  total : ∑ pfn ∈ framesOf pfnOf addr.toNat cnt.toNat, (new pfn - cnters pfn).toNat = cnt.toNat
  other : ∀ pfn ∉ framesOf pfnOf addr.toNat cnt.toNat, new pfn = cnters pfn

variable {pfnOf : ℕ → ℕ} {pfn x n m : ℕ}

theorem bytesOn_add : bytesOn pfnOf pfn x (n + m) =
    bytesOn pfnOf pfn x n + bytesOn pfnOf pfn (x + n) m := by
  simp only [bytesOn, Nat.count_add, Nat.add_assoc]

theorem bytesOn_le : bytesOn pfnOf pfn x n ≤ n := Nat.count_le _

/-- Bytes of one page. -/
theorem bytesOn_page (h : ∀ i < n, (x + i) / 4096 = m) :
    bytesOn pfnOf pfn x n = if pfnOf m = pfn then n else 0 := by
  induction n with
  | zero => simp [bytesOn]
  | succ n ih =>
    have hn := ih fun i hi => h i (by omega)
    have hlast := h n (by omega)
    rw [bytesOn] at hn ⊢
    rw [Nat.count_succ, hn, hlast]
    split <;> rfl

/-- Bytes of other pages. -/
theorem bytesOn_of_ne (h : ∀ i < n, pfnOf ((x + i) / 4096) ≠ pfn) : bytesOn pfnOf pfn x n = 0 := by
  rw [bytesOn, Nat.count_eq_card_filter_range, Finset.card_eq_zero, Finset.filter_eq_empty_iff]
  exact fun i hi => h i (Finset.mem_range.1 hi)

theorem sum_bytesOn (x n : ℕ) : ∑ pfn ∈ framesOf pfnOf x n, bytesOn pfnOf pfn x n = n := by
  have hmaps : ∀ i ∈ Finset.range n, pfnOf ((x + i) / 4096) ∈ framesOf pfnOf x n :=
    fun i hi => Finset.mem_image_of_mem _ hi
  have hcard := Finset.card_eq_sum_card_fiberwise hmaps
  rw [Finset.card_range] at hcard
  simp only [bytesOn, Nat.count_eq_card_filter_range]
  exact hcard.symm

theorem bytesOn_of_notMem (h : pfn ∉ framesOf pfnOf x n) : bytesOn pfnOf pfn x n = 0 := by
  refine bytesOn_of_ne fun i hi hpfn => ?_
  exact h (Finset.mem_image.2 ⟨i, Finset.mem_range.2 hi, hpfn⟩)

/-- The first part gives the other two. -/
theorem counted_of_bytes {addr cnt : UInt64} {cnters new : Counters}
    (h : ∀ pfn, new pfn = cnters pfn + UInt64.ofNat (bytesOn pfnOf pfn addr.toNat cnt.toNat)) :
    Counted pfnOf addr cnt cnters new := by
  refine ⟨h, ?_, fun pfn hpfn => by simp [h, bytesOn_of_notMem hpfn]⟩
  have hgrown (pfn : ℕ) :
      (new pfn - cnters pfn).toNat = bytesOn pfnOf pfn addr.toNat cnt.toNat := by
    have hlt := (@bytesOn_le pfnOf pfn addr.toNat cnt.toNat).trans_lt cnt.toNat_lt
    rw [h, UInt64.add_comm, UInt64.add_sub_cancel]
    simpa using Nat.mod_eq_of_lt hlt
  simp only [hgrown, sum_bytesOn]

/-! ## The turns of the loop -/

section Turns

variable {σ : Type} {track : σ → UInt64 → UInt64 → σ} {addr cnt addrT : UInt64} {s t : σ} {j : ℕ}

theorem toNat_pageMask (a : UInt64) : (a &&& pageMask).toNat = a.toNat / 4096 * 4096 :=
  Words.toNat_and_not_lowMask a (k := 12) (by decide)

theorem toNat_pageOffset (a : UInt64) : (a &&& pageOffset).toNat = a.toNat % 4096 :=
  Words.toNat_and_lowMask a (k := 12) (by decide)

theorem trackPages_of_lt {fuel : ℕ} (h : addrT < addr + cnt) :
    trackPages track addr cnt (fuel + 1) addrT s =
      trackPages track addr cnt fuel (addrT + 4096) (track s addrT (subCnt addr cnt addrT)) := by
  rw [trackPages, if_pos h]

theorem trackPages_of_le {fuel : ℕ} (h : addr + cnt ≤ addrT) :
    trackPages track addr cnt (fuel + 1) addrT s = some s := by
  rw [trackPages, if_neg (UInt64.not_lt.2 h)]

/-- More fuel does not change what is returned. -/
theorem trackPages_mono {fuel : ℕ} (h : trackPages track addr cnt fuel addrT s = some t) (k : ℕ) :
    trackPages track addr cnt (fuel + k) addrT s = some t := by
  induction fuel generalizing addrT s with
  | zero => simp [trackPages] at h
  | succ fuel ih =>
    rw [Nat.succ_add]
    by_cases hlt : addrT < addr + cnt
    · rw [trackPages_of_lt hlt] at h ⊢
      exact ih h
    · rw [trackPages_of_le (UInt64.not_lt.1 hlt)] at h ⊢
      exact h

theorem trackPages_unique {fuel fuel' : ℕ} {t' : σ}
    (h : trackPages track addr cnt fuel addrT s = some t)
    (h' : trackPages track addr cnt fuel' addrT s = some t') : t = t' := by
  have hmono := trackPages_mono h fuel'
  have hmono' := trackPages_mono h' fuel
  rw [Nat.add_comm, hmono] at hmono'
  exact Option.some.inj hmono'

/-- The share of the first page. -/
theorem subCnt_first (hlast : addr &&& pageMask ≠ (addr + cnt) &&& pageMask) :
    (subCnt addr cnt (addr &&& pageMask)).toNat = 4096 - addr.toNat % 4096 := by
  have hoff := toNat_pageOffset addr
  have hle : addr &&& pageOffset ≤ 4096 := by
    rw [UInt64.le_iff_toNat_le, hoff]
    exact (Nat.mod_lt _ (by decide)).le
  rw [subCnt, if_neg hlast, if_pos rfl, UInt64.toNat_sub_of_le _ _ hle, hoff]
  rfl

/-- The share of a page in the middle. -/
theorem subCnt_middle (hfirst : addrT ≠ addr &&& pageMask)
    (hlast : addrT ≠ (addr + cnt) &&& pageMask) : subCnt addr cnt addrT = 4096 := by
  rw [subCnt, if_neg hlast, if_neg hfirst]

/-- The share of the last page: what the code takes for the end of the write is the offset of its
start. -/
theorem subCnt_last (hne : (addr + cnt) &&& pageMask ≠ addr &&& pageMask) :
    (subCnt addr cnt ((addr + cnt) &&& pageMask)).toNat = addr.toNat % 4096 := by
  rw [subCnt, if_pos rfl, if_neg hne, toNat_pageOffset, UInt64.toNat_add]
  have := addr.toNat_lt
  have h4096 : (4096 : UInt64).toNat = 4096 := rfl
  omega

/-! ## What the loop counts -/

variable {pfnOf : ℕ → ℕ} (cnters : σ → Counters)

/-- The turns from the page `j` on, `n` of them before the last page. -/
theorem trackPages_counts
    (ht : ∀ s a n pfn, cnters (track s a n) pfn =
      cnters s pfn + if pfnOf (a.toNat / 4096) = pfn then n else 0)
    (hmulti : 4096 < addr.toNat % 4096 + cnt.toNat)
    (hend : addr.toNat + cnt.toNat ≤ 2 ^ 64 - 4096) {n : ℕ}
    (hn : (addr.toNat + cnt.toNat) / 4096 = j + n) (hj : addr.toNat / 4096 ≤ j)
    (haddrT : addrT.toNat = j * 4096) (s : σ) :
    ∃ fuel t, trackPages track addr cnt fuel addrT s = some t ∧
      ∀ pfn, cnters t pfn = cnters s pfn +
        UInt64.ofNat (bytesOn pfnOf pfn (max addr.toNat (j * 4096))
          ((addr.toNat + cnt.toNat) / 4096 * 4096 - max addr.toNat (j * 4096))) +
        if (addr.toNat + cnt.toNat) % 4096 ≠ 0 ∧ pfnOf ((addr.toNat + cnt.toNat) / 4096) = pfn
          then UInt64.ofNat (addr.toNat % 4096) else 0 := by
  have hsum : (addr + cnt).toNat = addr.toNat + cnt.toNat := by
    rw [UInt64.toNat_add]
    omega
  have hmask := toNat_pageMask addr
  have hmaskEnd := toNat_pageMask (addr + cnt)
  rw [hsum] at hmaskEnd
  induction n generalizing j addrT s with
  | zero =>
    have hx : (addr.toNat + cnt.toNat) / 4096 * 4096 - max addr.toNat (j * 4096) = 0 := by omega
    by_cases hrest : (addr.toNat + cnt.toNat) % 4096 = 0
    · refine ⟨1, s, trackPages_of_le (UInt64.le_iff_toNat_le.2 (by omega)), fun pfn => ?_⟩
      simp [hx, hrest, bytesOn]
    · have haddr : addrT = (addr + cnt) &&& pageMask := UInt64.toNat_inj.1 (by omega)
      have hne : (addr + cnt) &&& pageMask ≠ addr &&& pageMask := by
        intro heq
        have := congrArg UInt64.toNat heq
        omega
      have hnext : (addrT + 4096).toNat = (j + 1) * 4096 := by
        rw [UInt64.toNat_add, haddrT]
        have h4096 : (4096 : UInt64).toNat = 4096 := rfl
        omega
      refine ⟨2, track s addrT (subCnt addr cnt addrT), ?_, fun pfn => ?_⟩
      · rw [trackPages_of_lt (UInt64.lt_iff_toNat_lt.2 (by omega)),
          trackPages_of_le (UInt64.le_iff_toNat_le.2 (by omega))]
      · have hlast : subCnt addr cnt addrT = UInt64.ofNat (addr.toNat % 4096) := by
          rw [← UInt64.toNat_inj, haddr, subCnt_last hne]
          simp
          omega
        have hpage : addrT.toNat / 4096 = (addr.toNat + cnt.toNat) / 4096 := by omega
        rw [ht, hlast, hx, hpage]
        simp [hrest, bytesOn]
  | succ n ih =>
    have hnext : (addrT + 4096).toNat = (j + 1) * 4096 := by
      rw [UInt64.toNat_add, haddrT]
      have h4096 : (4096 : UInt64).toNat = 4096 := rfl
      omega
    obtain ⟨fuel, t, hrun, hcount⟩ := ih (by omega) (by omega) hnext
      (track s addrT (subCnt addr cnt addrT))
    refine ⟨fuel + 1, t, ?_, fun pfn => ?_⟩
    · rw [trackPages_of_lt (UInt64.lt_iff_toNat_lt.2 (by omega)), hrun]
    · have hlast : addrT ≠ (addr + cnt) &&& pageMask := by
        intro heq
        have := congrArg UInt64.toNat heq
        omega
      -- the bytes of this page, and those from the next page on
      have hshare : (subCnt addr cnt addrT).toNat =
          (j + 1) * 4096 - max addr.toNat (j * 4096) := by
        by_cases hfirst : addrT = addr &&& pageMask
        · have := congrArg UInt64.toNat hfirst
          rw [hfirst, subCnt_first (hfirst ▸ hlast)]
          omega
        · have hj' : addr.toNat / 4096 ≠ j := by
            intro heq
            exact hfirst (UInt64.toNat_inj.1 (by omega))
          rw [subCnt_middle hfirst hlast]
          have h4096 : (4096 : UInt64).toNat = 4096 := rfl
          omega
      have hmax : max addr.toNat ((j + 1) * 4096) =
          max addr.toNat (j * 4096) + (subCnt addr cnt addrT).toNat := by omega
      have hsplit : (addr.toNat + cnt.toNat) / 4096 * 4096 - max addr.toNat (j * 4096) =
          (subCnt addr cnt addrT).toNat +
            ((addr.toNat + cnt.toNat) / 4096 * 4096 - max addr.toNat ((j + 1) * 4096)) := by
        omega
      have hpage : bytesOn pfnOf pfn (max addr.toNat (j * 4096)) (subCnt addr cnt addrT).toNat =
          if pfnOf j = pfn then (subCnt addr cnt addrT).toNat else 0 :=
        bytesOn_page fun i hi => by omega
      have hj : addrT.toNat / 4096 = j := by omega
      rw [hcount, ht, hj, hsplit, bytesOn_add, hpage, hmax]
      split <;> simp [UInt64.add_assoc]

/-- A write that ends behind the last page of the address space is counted without an end. -/
theorem trackPages_eq_none (hlt : addr.toNat + cnt.toNat < 2 ^ 64)
    (hend : 2 ^ 64 - 4096 < addr.toNat + cnt.toNat) (hpage : addrT.toNat % 4096 = 0) (fuel : ℕ) :
    trackPages track addr cnt fuel addrT s = none := by
  induction fuel generalizing addrT s with
  | zero => rfl
  | succ fuel ih =>
    have hsum : (addr + cnt).toNat = addr.toNat + cnt.toNat := by
      rw [UInt64.toNat_add]
      omega
    have := addrT.toNat_lt
    rw [trackPages_of_lt (UInt64.lt_iff_toNat_lt.2 (by omega))]
    refine ih ?_
    rw [UInt64.toNat_add]
    have h4096 : (4096 : UInt64).toNat = 4096 := rfl
    omega

/-- When the share of each page comes out right: there is one page, or there is no last page with a
share of its own, or its share happens to be that of the offset of `addr`. -/
def Exact (addr cnt : UInt64) : Prop :=
  addr.toNat % 4096 + cnt.toNat ≤ 4096 ∨
    addr.toNat + cnt.toNat ≤ 2 ^ 64 - 4096 ∧
      (cnt.toNat % 4096 = 0 ∨ (addr.toNat + cnt.toNat) % 4096 = 0)

theorem trackAddr_one {fuel : ℕ} (h : addr.toNat % 4096 + cnt.toNat ≤ 4096) :
    trackAddr track addr cnt fuel s = some (track s addr cnt) := by
  refine if_pos (UInt64.le_iff_toNat_le.2 ?_)
  rw [UInt64.toNat_add, toNat_pageOffset]
  have h4096 : (4096 : UInt64).toNat = 4096 := rfl
  omega

theorem trackAddr_many {fuel : ℕ} (h : 4096 < addr.toNat % 4096 + cnt.toNat)
    (hlt : addr.toNat + cnt.toNat < 2 ^ 64) :
    trackAddr track addr cnt fuel s =
      trackPages track addr cnt fuel (addr &&& pageMask) s := by
  refine if_neg fun hle => ?_
  have := UInt64.le_iff_toNat_le.1 hle
  rw [UInt64.toNat_add, toNat_pageOffset] at this
  have h4096 : (4096 : UInt64).toNat = 4096 := rfl
  omega

/-- The bytes in the pages before the last one, and those in the last one. -/
theorem bytesOn_last (hmulti : 4096 < addr.toNat % 4096 + cnt.toNat) (pfn : ℕ) :
    bytesOn pfnOf pfn addr.toNat cnt.toNat =
      bytesOn pfnOf pfn addr.toNat ((addr.toNat + cnt.toNat) / 4096 * 4096 - addr.toNat) +
        if pfnOf ((addr.toNat + cnt.toNat) / 4096) = pfn
          then (addr.toNat + cnt.toNat) % 4096 else 0 := by
  have hcnt : cnt.toNat = ((addr.toNat + cnt.toNat) / 4096 * 4096 - addr.toNat) +
      (addr.toNat + cnt.toNat) % 4096 := by omega
  have hpage := @bytesOn_page pfnOf pfn
    (addr.toNat + ((addr.toNat + cnt.toNat) / 4096 * 4096 - addr.toNat))
    ((addr.toNat + cnt.toNat) % 4096) ((addr.toNat + cnt.toNat) / 4096) (fun i hi => by omega)
  rw [← hpage, ← bytesOn_add, ← hcnt]

theorem trackAddr_of_exact
    (ht : ∀ s a n pfn, cnters (track s a n) pfn =
      cnters s pfn + if pfnOf (a.toNat / 4096) = pfn then n else 0)
    (h : Exact addr cnt) (s : σ) : ∃ fuel t, trackAddr track addr cnt fuel s = some t ∧
      Counted pfnOf addr cnt (cnters s) (cnters t) := by
  by_cases hone : addr.toNat % 4096 + cnt.toNat ≤ 4096
  · refine ⟨0, _, trackAddr_one hone, counted_of_bytes fun pfn => ?_⟩
    rw [ht, @bytesOn_page pfnOf pfn addr.toNat cnt.toNat (addr.toNat / 4096) fun i hi => by omega]
    split <;> simp
  · obtain ⟨hend, hshare⟩ := h.resolve_left hone
    obtain ⟨fuel, t, hrun, hcount⟩ := trackPages_counts cnters ht (by omega) hend
      (show (addr.toNat + cnt.toNat) / 4096 = addr.toNat / 4096 +
        ((addr.toNat + cnt.toNat) / 4096 - addr.toNat / 4096) by omega) le_rfl
      (toNat_pageMask addr) s
    have hmax : max addr.toNat (addr.toNat / 4096 * 4096) = addr.toNat := by omega
    refine ⟨fuel, t, (trackAddr_many (by omega) (by omega)).trans hrun,
      counted_of_bytes fun pfn => ?_⟩
    rw [hcount, hmax, bytesOn_last (by omega)]
    by_cases hpfn : pfnOf ((addr.toNat + cnt.toNat) / 4096) = pfn
    · by_cases hrest : (addr.toNat + cnt.toNat) % 4096 = 0
      · simp [hrest]
      · have hoff : (addr.toNat + cnt.toNat) % 4096 = addr.toNat % 4096 := by omega
        rw [if_pos ⟨hrest, hpfn⟩, if_pos hpfn, hoff, UInt64.ofNat_add, UInt64.add_assoc]
    · simp [hpfn]

/-- Where each page is its own frame, a count that is right has the shares right. -/
theorem exact_of_trackAddr
    (ht : ∀ s a n pfn, cnters (track s a n) pfn =
      cnters s pfn + if a.toNat / 4096 = pfn then n else 0) {fuel : ℕ}
    (hrun : trackAddr track addr cnt fuel s = some t)
    (hcount : Counted id addr cnt (cnters s) (cnters t)) : Exact addr cnt := by
  by_contra hexact
  obtain ⟨hmulti, hshare⟩ := not_or.1 hexact
  have haddr := addr.toNat_lt
  have hcnt := cnt.toNat_lt
  rcases Nat.lt_or_ge (addr.toNat + cnt.toNat) (2 ^ 64) with hlt | hge
  · rw [trackAddr_many (by omega) hlt] at hrun
    by_cases hend : addr.toNat + cnt.toNat ≤ 2 ^ 64 - 4096
    · -- the last page got the offset of the start
      obtain ⟨fuel', t', hrun', hcount'⟩ := @trackPages_counts σ track addr cnt _ _ id cnters ht
        (by omega) hend _
        (show (addr.toNat + cnt.toNat) / 4096 = addr.toNat / 4096 +
          ((addr.toNat + cnt.toNat) / 4096 - addr.toNat / 4096) by omega) le_rfl
        (toNat_pageMask addr) s
      obtain rfl := trackPages_unique hrun hrun'
      have hmax : max addr.toNat (addr.toNat / 4096 * 4096) = addr.toNat := by omega
      have hlast := hcount.bytes ((addr.toNat + cnt.toNat) / 4096)
      rw [hcount', hmax, bytesOn_last (by omega)] at hlast
      have hrest : (addr.toNat + cnt.toNat) % 4096 ≠ 0 := by omega
      simp only [id, if_true, and_true, hrest, ne_eq, not_false_eq_true, UInt64.ofNat_add,
        ← UInt64.add_assoc] at hlast
      have hoff := congrArg UInt64.toNat ((UInt64.add_right_inj _).1 hlast)
      simp only [UInt64.toNat_ofNat'] at hoff
      omega
    · have hnone := @trackPages_eq_none σ track addr cnt (addr &&& pageMask) s hlt (by omega)
        (by rw [toNat_pageMask]; omega) fuel
      rw [hnone] at hrun
      cases hrun
  · -- the rest of the first page is not what is counted for it
    have hfirst := hcount.bytes (addr.toNat / 4096)
    have hsplit : cnt.toNat = (4096 - addr.toNat % 4096) +
        (cnt.toNat - (4096 - addr.toNat % 4096)) := by omega
    rw [hsplit, bytesOn_add, @bytesOn_page id _ addr.toNat _ (addr.toNat / 4096) (by omega),
      @bytesOn_of_ne id _ _ _ (by simp only [id]; omega), id, if_pos rfl, Nat.add_zero] at hfirst
    rw [trackAddr] at hrun
    split at hrun
    case isTrue =>
      obtain rfl := Option.some.inj hrun
      rw [ht, if_pos rfl, UInt64.add_right_inj, ← UInt64.toNat_inj, UInt64.toNat_ofNat'] at hfirst
      omega
    case isFalse hmany =>
      have hbehind : addr + cnt ≤ addr &&& pageMask := by
        rw [UInt64.le_iff_toNat_le, UInt64.toNat_add, toNat_pageOffset] at hmany
        rw [UInt64.le_iff_toNat_le, UInt64.toNat_add, toNat_pageMask]
        have h4096 : (4096 : UInt64).toNat = 4096 := rfl
        omega
      cases fuel with
      | zero => cases hrun
      | succ fuel =>
        rw [trackPages_of_le hbehind] at hrun
        obtain rfl := Option.some.inj hrun
        have hzero := congrArg UInt64.toNat ((UInt64.left_eq_add).1 hfirst)
        rw [UInt64.toNat_ofNat'] at hzero
        simp at hzero
        omega

end Turns

/-! ## The two functions -/

variable {power : ℕ} {addr cnt : UInt64}

theorem wtCnterAdd_cnters_apply (power : ℕ) (cnters : Counters) (q : ℕ) :
    (wtCnterAdd power cnters q cnt).2 pfn = cnters pfn + if q = pfn then cnt else 0 := by
  rw [wtCnterAdd_cnters]
  by_cases h : q = pfn
  · subst h
    simp
  · rw [Function.update_of_ne (Ne.symm h), if_neg h, UInt64.add_zero]

theorem wtCnterTrackPfn_cnters (s : Tracker) (q : ℕ) :
    (wtCnterTrackPfn power s q cnt).cnters pfn = s.cnters pfn + if q = pfn then cnt else 0 :=
  wtCnterAdd_cnters_apply power s.cnters q

theorem wtCnterTrackPfnIntless_cnters (s : Bool × Counters) (q : ℕ) :
    (wtCnterTrackPfnIntless power s q cnt).2 pfn = s.2 pfn + if q = pfn then cnt else 0 :=
  wtCnterAdd_cnters_apply power s.2 q

/-- `wt_cnter_track_addr` returns, and has counted each byte on its own page, whatever frames are
behind the pages. -/
def TracksBytes (power : ℕ) (addr cnt : UInt64) : Prop :=
  ∀ pfnOf s, ∃ fuel t, wtCnterTrackAddr power pfnOf fuel s addr cnt = some t ∧
    Counted pfnOf addr cnt s.cnters t.cnters

/-- The same for `wt_cnter_track_addr_intless`. -/
def TracksBytesIntless (power : ℕ) (addr cnt : UInt64) : Prop :=
  ∀ pfnOf cnters, ∃ fuel t, wtCnterTrackAddrIntless power pfnOf fuel cnters addr cnt = some t ∧
    Counted pfnOf addr cnt cnters t.2

/-- The bytes of a write are counted on their own pages just when the shares are exact. -/
theorem tracksBytes_iff (power : ℕ) (addr cnt : UInt64) :
    (TracksBytes power addr cnt ↔ Exact addr cnt) ∧
      (TracksBytesIntless power addr cnt ↔ Exact addr cnt) := by
  refine ⟨⟨fun h => ?_, fun h pfnOf s => ?_⟩, ⟨fun h => ?_, fun h pfnOf cnters => ?_⟩⟩
  · obtain ⟨fuel, t, hrun, hcount⟩ := h id ⟨fun _ => 0, []⟩
    exact exact_of_trackAddr Tracker.cnters (fun s _ _ _ => wtCnterTrackPfn_cnters s _) hrun hcount
  · exact trackAddr_of_exact Tracker.cnters (fun s _ _ _ => wtCnterTrackPfn_cnters s _) h s
  · obtain ⟨fuel, t, hrun, hcount⟩ := h id fun _ => 0
    exact exact_of_trackAddr Prod.snd (fun s _ _ _ => wtCnterTrackPfnIntless_cnters s _) hrun hcount
  · exact trackAddr_of_exact Prod.snd (fun s _ _ _ => wtCnterTrackPfnIntless_cnters s _) h
      (false, cnters)

/-- A write of 5000 bytes from the start of a page: the second page has 904 of them, and none is
counted. -/
theorem not_tracksBytes_5000 : ¬∀ addr cnt, TracksBytes 17 addr cnt := by
  intro h
  obtain ⟨fuel, t, hrun, hcount⟩ := h 8192 5000 id ⟨fun _ => 0, []⟩
  have hexact := exact_of_trackAddr Tracker.cnters (fun s _ _ _ => wtCnterTrackPfn_cnters s _)
    hrun hcount
  exact absurd hexact (by unfold Exact; decide)

end Wpmfs.Counter
