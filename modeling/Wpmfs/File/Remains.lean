import Wpmfs.File.Truncate

/-!
# What a truncation leaves of a tree

Where nothing is beyond the range, all that is left starts before it. Where each page has a block
behind it, each page that is left has one.
-/

namespace Wpmfs.File

open Spans

variable {h l k n first last stop start : ℕ} {freed : Multiset (ℕ × ℕ)} {f f' : File}

/-- The first block behind a pointer. -/
def pageStart (l k : ℕ) : ℕ := k / 512 ^ l * 512 ^ l

theorem pageStart_le (l k : ℕ) : pageStart l k ≤ k := Nat.div_mul_le_self k _

@[simp] theorem pageStart_zero (k : ℕ) : pageStart 0 k = k := by simp [pageStart]

theorem pageStart_eq_zero (hk : k < 512 ^ l) : pageStart l k = 0 := by
  rw [pageStart, Nat.div_eq_of_lt hk, Nat.zero_mul]

theorem pageStart_mono {j : ℕ} (hle : k / 512 ^ l ≤ j / 512 ^ l) : pageStart l k ≤ j :=
  (Nat.mul_le_mul_right _ hle).trans (pageStart_le l j)

/-- A page starts with its first child, or before. -/
theorem pageStart_succ {j : ℕ} (hsame : j / 512 ^ (l + 1) = k / 512 ^ (l + 1)) :
    pageStart (l + 1) k ≤ pageStart l j := by
  rw [pageStart, pageStart, ← hsame, pow_succ, ← Nat.div_div_eq_div_mul, Nat.mul_comm (512 ^ l),
    ← Nat.mul_assoc]
  exact Nat.mul_le_mul_right _ (Nat.div_mul_le_self _ _)

/-- What is left outside of the range is before it, where nothing is beyond it. -/
theorem Cut.before_of_not_meets {t u : Slot h} (hcut : Cut t first last freed u)
    (hnone : t.ptr l k ≠ none → k / 512 ^ l ≤ last / 512 ^ l) (hk : k < 512 ^ h)
    (hptr : u.ptr l k ≠ none) (hmeets : ¬Meets 512 first last l k) : pageStart l k < first := by
  have hlast := hnone (by rwa [← hcut.kept l k hk hmeets])
  have hfirst : k / 512 ^ l < first / 512 ^ l := by
    by_contra hge
    exact hmeets ⟨by omega, hlast⟩
  exact (Nat.mul_lt_mul_of_pos_right hfirst (Nat.pow_pos (by decide))).trans_le
    (Nat.div_mul_le_self first _)

theorem Cut.before_data {t u : Slot h} (hcut : Cut t first last freed u)
    (hnone : t.ptr 0 k ≠ none → k ≤ last) (hk : k < 512 ^ h) (hptr : u.ptr 0 k ≠ none) :
    k < first := by
  have hbefore := hcut.before_of_not_meets (l := 0) (by simpa using hnone) hk hptr fun hmeets => by
    obtain ⟨hk', hk''⟩ := meets_zero.mp hmeets
    exact hptr (hcut.gone k hk' hk'')
  rwa [pageStart_zero] at hbefore

/-- All that is left starts before the cut, where nothing is beyond it. -/
theorem Cut.before {t u : Slot h} (hcut : Cut t first last freed u)
    (hnone : ∀ l k, k < 512 ^ h → t.ptr l k ≠ none → k / 512 ^ l ≤ last / 512 ^ l)
    (hk : k < 512 ^ h) (hptr : u.ptr l k ≠ none) : pageStart l k < first := by
  induction l generalizing k with
  | zero =>
    rw [pageStart_zero]
    exact hcut.before_data (fun h => by simpa using hnone 0 k hk h) hk hptr
  | succ l ih =>
    by_cases hmeets : Meets 512 first last (l + 1) k
    · obtain ⟨j, hj, hjk, hptr'⟩ := hcut.live l k hk hmeets hptr
      exact (pageStart_succ hjk).trans_lt (ih hj hptr')
    · exact hcut.before_of_not_meets (hnone _ k hk) hk hptr hmeets

/-- There is a block behind each page. -/
def Slot.Solid (t : Slot h) : Prop :=
  ∀ l k, k < 512 ^ h → t.ptr l k ≠ none →
    ∃ j < 512 ^ h, j / 512 ^ l = k / 512 ^ l ∧ t.ptr 0 j ≠ none

theorem Cut.solid {t u : Slot h} (hcut : Cut t first last freed u) (ht : t.Solid) : u.Solid := by
  intro l
  induction l with
  | zero => exact fun k hk hptr => ⟨k, hk, rfl, hptr⟩
  | succ l ih =>
    intro k hk hptr
    by_cases hmeets : Meets 512 first last (l + 1) k
    · obtain ⟨j, hj, hjk, hptr'⟩ := hcut.live l k hk hmeets hptr
      obtain ⟨i, hi, hij, hfound⟩ := ih j hj hptr'
      refine ⟨i, hi, le_antisymm ?_ ?_, hfound⟩
      · exact (div_mono (Nat.le_succ l) hij.le).trans hjk.le
      · exact hjk.ge.trans (div_mono (Nat.le_succ l) hij.ge)
    · rw [hcut.kept _ k hk hmeets] at hptr
      obtain ⟨j, hj, hjk, hfound⟩ := ht (l + 1) k hk hptr
      refine ⟨j, hj, hjk, ?_⟩
      rwa [hcut.kept 0 j hj]
      intro hmeets'
      have habove := hmeets'.above (Nat.zero_le (l + 1))
      rw [Meets, hjk] at habove
      exact hmeets habove

/-! ## Files -/

/-- Nothing is beyond the block `last`, on any level. -/
def EndsBy (f : File) (last : ℕ) : Prop := ∀ l k, f.ptr l k ≠ none → k / 512 ^ l ≤ last / 512 ^ l

/-- No block is. -/
def DataBy (f : File) (last : ℕ) : Prop := ∀ k, f.ptr 0 k ≠ none → k ≤ last

theorem exists_data_of_numData_ne_zero {t : Slot h} (ht : numData t.entries ≠ 0) :
    ∃ k < 512 ^ h, t.ptr 0 k ≠ none := by
  rw [← Slot.card_find] at ht
  obtain ⟨k, hk⟩ := Finset.card_ne_zero.mp ht
  obtain ⟨hlt, hptr⟩ := Finset.mem_filter.mp hk
  exact ⟨k, Finset.mem_range.mp hlt, hptr⟩

namespace Truncates

variable {mounting : Bool} {out : List (ℕ × ℕ)} {u : Slot f.height} {t : (h : ℕ) × Slot h}
  {pages lost : Multiset (ℕ × ℕ)}

theorem data_before (hcuts : Truncates mounting f start last out f' u t freed pages lost)
    (hdata : f.DataBy last) (hk : k < 512 ^ f.height) (hptr : u.ptr 0 k ≠ none) :
    k < truncateFirst start :=
  hcuts.cut.before_data (fun h => hdata k (by rwa [ptr_of_lt hk])) hk hptr

theorem ptr_left (hcuts : Truncates mounting f start last out f' u t freed pages lost)
    (hptr : f'.ptr l k ≠ none) : k < 512 ^ f.height ∧ u.ptr l k ≠ none := by
  rw [hcuts.ptr] at hptr
  have hk := lt_of_treePtr hptr
  rw [treePtr_of_lt hk] at hptr
  rw [hcuts.lowered.ptr l k (Slot.le_of_ptr hptr) hk] at hptr
  exact ⟨hk.trans_le (Nat.pow_le_pow_right (by decide) hcuts.height_le), hptr⟩

/-- What is left starts before the cut. -/
theorem before (hcuts : Truncates mounting f start last out f' u t freed pages lost)
    (hends : f.EndsBy last) (hptr : f'.ptr l k ≠ none) : pageStart l k < truncateFirst start :=
  hcuts.cut.before (fun l k hk hptr => hends l k (by rwa [ptr_of_lt hk])) (hcuts.ptr_left hptr).1
    (hcuts.ptr_left hptr).2

/-- No block is lost with the old roots. -/
theorem numData_lost (hcuts : Truncates mounting f start last out f' u t freed pages lost)
    (hdata : f.DataBy last) : numData lost = 0 := by
  refine Multiset.countP_eq_zero.mpr fun p hp hzero => ?_
  obtain ⟨k, hk, hptr, hle⟩ := hcuts.lowered.lost p hp
  have hptr := ne_of_eq_of_ne hptr (Option.some_ne_none _)
  have hfirst := (hcuts.start_le (Slot.isNull_eq_false_of_ptr hptr)).2
  rw [hzero] at hptr hle
  rw [Nat.zero_max] at hle
  have := hcuts.data_before hdata hk hptr
  omega

theorem numData_left (hcuts : Truncates false f start last out f' u t freed pages lost)
    (hcount : f.iBlocks = numData f.root.entries) : f.iBlocks - numData freed = numData u.entries := by
  have hcut := congrArg numData hcuts.cut.entries
  rw [map_add] at hcut
  omega

theorem iBlocks_eq (hcuts : Truncates false f start last out f' u t freed pages lost)
    (hdata : f.DataBy last) (hcount : f.iBlocks = numData f.root.entries) :
    f'.iBlocks = numData f'.root.entries := by
  have hblocks := hcuts.iBlocks hcount
  have hleft := hcuts.numData_left hcount
  have hlow := congrArg numData hcuts.lowered.entries
  have hpages : numData pages = 0 :=
    Multiset.countP_eq_zero.mpr fun p hp => (hcuts.lowered.pages p hp).ne'
  rw [map_add, map_add, hpages, hcuts.numData_lost hdata] at hlow
  rw [hcuts.root]
  omega

theorem wellFormed (hcuts : Truncates false f start last out f' u t freed pages lost)
    (hdata : f.DataBy last) (hf : f.WellFormed) (hcount : f.iBlocks = numData f.root.entries) :
    f'.WellFormed := by
  have htotal : (out : Multiset (ℕ × ℕ)) + lost + f'.root.entries = f.root.entries := by
    rw [hcuts.root, ← hcuts.total]
    exact add_right_comm _ _ _
  have hnodup := hf.nodup
  have hnonzero := hf.nonzero
  rw [← htotal, Multiset.map_add] at hnodup hnonzero
  refine ⟨?_, fun hnull => ?_, (Multiset.nodup_add.mp hnodup).2.1,
    fun h => hnonzero (Multiset.mem_add.mpr (.inr h))⟩
  · rw [hcuts.height]
    exact hcuts.height_le.trans hf.height_le
  · by_contra hpos
    have hu : u ≠ .null := by
      intro hu
      rw [hcuts.height, hcuts.null hu] at hpos
      exact hpos rfl
    have hleft := hcuts.left hu
    rw [if_neg (by decide), hcuts.numData_left hcount] at hleft
    -- A block that is left is behind the new root.
    obtain ⟨k, hk, hptr⟩ := exists_data_of_numData_ne_zero hleft
    have hlt := (hcuts.data_before hdata hk hptr).trans_le (hcuts.start_le hu).2
    have hptr' : f'.ptr 0 k ≠ none := by
      rwa [hcuts.ptr, treePtr_of_lt hlt, hcuts.lowered.ptr 0 k (Nat.zero_le _) hlt]
    rw [ptr_of_lt (lt_of_ptr hptr'), Slot.isNull_iff.mp hnull, Slot.ptr_null] at hptr'
    exact hptr' rfl

theorem solid (hcuts : Truncates mounting f start last out f' u t freed pages lost)
    (hf : f.root.Solid) : f'.root.Solid := by
  intro l k hk hptr
  rw [← ptr_of_lt hk] at hptr
  obtain ⟨hkh, hptr'⟩ := hcuts.ptr_left hptr
  obtain ⟨j, hj, hjk, hfound⟩ := hcuts.cut.solid hf l k hkh hptr'
  rw [ptr_of_lt hk] at hptr
  have hlt : j < 512 ^ t.1 := by
    rw [hcuts.height] at hk
    refine lt_of_div_eq ?_ hjk hk
    rw [← hcuts.height]
    exact Slot.le_of_ptr hptr
  refine ⟨j, by rwa [hcuts.height], hjk, ?_⟩
  rw [← ptr_of_lt (by rwa [hcuts.height]), hcuts.ptr, treePtr_of_lt hlt,
    hcuts.lowered.ptr 0 j (Nat.zero_le _) hlt]
  exact hfound

end Truncates

/-! ## Size changes -/

/-- Without the flag, no block is past the end of the file. -/
def DataInside (f : File) : Prop :=
  f.eofblocks = false → ∀ k, f.ptr 0 k ≠ none → k * 4096 < f.iSize

/-- Without the flag, no page starts past the end of the file, but for those of the first block. -/
def PagesInside (f : File) : Prop :=
  f.eofblocks = false → ∀ l k, f.ptr l k ≠ none → pageStart l k = 0 ∨ pageStart l k * 4096 < f.iSize

/-- What a file is like between calls. -/
structure Counted (f : File) : Prop where
  wellFormed : f.WellFormed
  count : f.iBlocks = numData f.root.entries
  inside : f.DataInside

theorem DataInside.pagesInside (hf : f.DataInside) (hsolid : f.root.Solid) : f.PagesInside := by
  intro heof l k hptr
  have hk := lt_of_ptr hptr
  rw [ptr_of_lt hk] at hptr
  obtain ⟨j, hj, hjk, hfound⟩ := hsolid l k hk hptr
  have hlt := hf heof j (by rwa [ptr_of_lt hj])
  exact .inr ((Nat.mul_le_mul_right _ (pageStart_mono hjk.ge)).trans_lt hlt)

theorem Counted.pagesInside (hf : f.Counted) (hsolid : f.root.Solid) : f.PagesInside :=
  hf.inside.pagesInside hsolid

theorem truncateLast_of_clear (heof : f.eofblocks = false) (hsize : f.iSize ≠ 0) :
    f.truncateLast f.iSize = some (pmfsSparseLastBlocknr f.height ((f.iSize - 1) / 4096)) := by
  rw [truncateLast, if_neg (by simp [heof]), if_neg hsize]

/-- What starts before the end of the file starts before the end of what is truncated. -/
theorem start_le_last (hlast : f.truncateLast f.iSize = some last) (hptr : f.ptr l k ≠ none)
    (hstart : f.eofblocks = false → pageStart l k = 0 ∨ pageStart l k * 4096 < f.iSize) :
    pageStart l k ≤ last := by
  have hk := lt_of_ptr hptr
  have hle := pageStart_le l k
  cases heof : f.eofblocks with
  | true =>
    rw [truncateLast, if_pos heof] at hlast
    cases hlast
    omega
  | false =>
    have hstart := hstart heof
    by_cases hsize : f.iSize = 0
    · rw [truncateLast, if_neg (by simp [heof]), if_pos hsize] at hlast
      cases hlast
    · rw [truncateLast_of_clear heof hsize] at hlast
      cases hlast
      rw [pmfsSparseLastBlocknr]
      split <;> omega

theorem DataInside.dataBy (hdata : f.DataInside) (hlast : f.truncateLast f.iSize = some last) :
    f.DataBy last := by
  intro k hptr
  have hle := start_le_last hlast hptr fun heof => .inr (by
    rw [pageStart_zero]
    exact hdata heof k hptr)
  rwa [pageStart_zero] at hle

theorem PagesInside.endsBy (hpages : f.PagesInside) (hlast : f.truncateLast f.iSize = some last) :
    f.EndsBy last := by
  intro l k hptr
  have hle := Nat.div_le_div_right (c := 512 ^ l)
    (start_le_last hlast hptr fun heof => hpages heof l k hptr)
  rwa [pageStart, Nat.mul_div_cancel _ (Nat.pow_pos (by decide))] at hle

/-- What a change of the size leaves. -/
theorem pmfsNotifyChange_counted {out : List (ℕ × ℕ)} (hf : f.Counted)
    (hrun : pmfsNotifyChange f n = some (out, f')) :
    f'.Counted ∧ (f.PagesInside → f'.PagesInside) ∧ (f.root.Solid → f'.root.Solid) := by
  rw [pmfsNotifyChange] at hrun
  split at hrun
  · have hwell : WellFormed { f with iSize := n } := ⟨hf.wellFormed.height_le, hf.wellFormed.null,
      hf.wellFormed.nodup, hf.wellFormed.nonzero⟩
    rw [pmfsSetsize] at hrun
    rcases pmfsTruncateBlocks_cases (f := { f with iSize := n }) (.inr hf.count) hrun with
      ⟨-, rfl, hnone⟩ | ⟨last, u, t, freed, pages, lost, hlast, hcuts⟩
    · -- Nothing is cut off: what there is starts before the new end.
      have hkept : f.eofblocks = false → ∀ l k, f.ptr l k ≠ none →
          (pageStart l k = 0 ∨ pageStart l k * 4096 < f.iSize) →
          f.iSize = 0 ∨ pageStart l k * 4096 < n := by
        intro heof l k hptr hstart
        rcases hnone with hnull | hnone
        · have hk := lt_of_ptr hptr
          rw [ptr_of_lt hk, show f.root = .null from hnull, Slot.ptr_null] at hptr
          exact absurd rfl hptr
        · by_cases hsize : f.iSize = 0
          · exact .inl hsize
          · have htrunc := truncateLast_of_clear heof hsize
            have hlt := hnone _ htrunc
            have hle := start_le_last htrunc hptr fun _ => hstart
            rw [truncateFirst] at hlt
            exact .inr (by omega)
      refine ⟨⟨hwell, hf.count, fun heof k hptr => ?_⟩, fun hpages heof l k hptr => ?_, id⟩
      · have hlt := hf.inside heof k hptr
        have hkept := hkept heof 0 k hptr (.inr (by rwa [pageStart_zero]))
        rw [pageStart_zero] at hkept
        exact hkept.resolve_left (by omega)
      · have hstart := hpages heof l k hptr
        have := hkept heof l k hptr hstart
        exact this.elim (fun hsize => hstart.imp_right (by omega)) .inr
    · have hdata : DataBy { f with iSize := n } last := (hf.inside.dataBy hlast : f.DataBy last)
      have hsize : f'.iSize = n := by rw [hcuts.file, checkEofBlocks_eq]
      refine ⟨⟨hcuts.wellFormed hdata hwell hf.count, hcuts.iBlocks_eq hdata hf.count,
        fun _ k hptr => ?_⟩, fun hpages _ l k hptr => .inr ?_, hcuts.solid⟩
      · obtain ⟨hk, hptr⟩ := hcuts.ptr_left hptr
        have hlt := hcuts.data_before hdata hk hptr
        rw [truncateFirst] at hlt
        omega
      · have hlt := hcuts.before (hpages.endsBy hlast : f.EndsBy last) hptr
        rw [truncateFirst] at hlt
        omega
  · cases hrun
    exact ⟨hf, id, id⟩

end Wpmfs.File
