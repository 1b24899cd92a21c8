import Mathlib.Algebra.BigOperators.Intervals
import Mathlib.Algebra.Order.Ring.Int
import Mathlib.Algebra.Order.Ring.Nat
import Wpmfs.File.Tree

/-!
# What a truncation cuts off

A truncation gives back the blocks of its range, and the pages that are empty then. A page that
stays and meets the range leads to a block outside of the range. Where the tree gets lower, what is
behind the other slots of the old roots is lost: that is nothing as long as there is nothing beyond
the range.
-/

namespace Wpmfs.File

open Spans

variable {h n k l i j b first last firstIndex lastIndex : ℕ} {freed : Multiset (ℕ × ℕ)}

/-- What is left behind a pointer: the page that is empty goes. -/
def leftOf (r : List (ℕ × ℕ) × Bool × Slot h) : Slot h := if r.2.1 then .null else r.2.2

/-- `u` is left of `t`, after the blocks of a range have been cut off. -/
structure Cut (t : Slot h) (first last : ℕ) (freed : Multiset (ℕ × ℕ)) (u : Slot h) : Prop where
  entries : freed + u.entries = t.entries
  sub : ∀ l k b, u.ptr l k = some b → t.ptr l k = some b
  kept : ∀ l k, k < 512 ^ h → ¬Meets 512 first last l k → u.ptr l k = t.ptr l k
  gone : ∀ k, first ≤ k → k ≤ last → u.ptr 0 k = none
  live : ∀ l k, k < 512 ^ h → Meets 512 first last (l + 1) k → u.ptr (l + 1) k ≠ none →
    ∃ j < 512 ^ h, j / 512 ^ (l + 1) = k / 512 ^ (l + 1) ∧ u.ptr l j ≠ none

theorem Cut.null : Cut (.null : Slot h) first last 0 .null :=
  ⟨zero_add _, fun _ _ _ h => h, fun _ _ _ _ => rfl, fun _ _ _ => Slot.ptr_null,
    fun _ _ _ _ h => absurd Slot.ptr_null h⟩

/-- The blocks of data that are freed are those of the range. -/
theorem Cut.mem_freed_iff {t u : Slot h} (hcut : Cut t first last freed u)
    (hnodup : (t.entries.map Prod.snd).Nodup) (hlast : last < 512 ^ h) :
    (0, b) ∈ freed ↔ ∃ k, first ≤ k ∧ k ≤ last ∧ t.ptr 0 k = some b := by
  have hsum := hnodup
  rw [← hcut.entries, Multiset.map_add] at hsum
  have hapart := (Multiset.nodup_add.mp hsum).2.2
  constructor
  · intro hb
    obtain ⟨k, hk, hptr⟩ := Slot.mem_entries.mp
      (hcut.entries ▸ Multiset.mem_add.mpr (.inl hb) : (0, b) ∈ t.entries)
    by_contra hout
    have hmeets : ¬Meets 512 first last 0 k := fun hmeets => by
      obtain ⟨hfirst, hlast⟩ := meets_zero.mp hmeets
      exact hout ⟨k, hfirst, hlast, hptr⟩
    have hleft : u.ptr 0 k = some b := (hcut.kept 0 k hk hmeets).trans hptr
    exact Multiset.disjoint_left.mp hapart (Slot.mem_map_of_mem hb)
      (Slot.mem_map_of_mem (Slot.mem_entries_of_ptr hk hleft))
  · rintro ⟨k, hfirst, hlast', hptr⟩
    have hk : k < 512 ^ h := by omega
    have hmem := Slot.mem_entries_of_ptr hk hptr
    rw [← hcut.entries] at hmem
    rcases Multiset.mem_add.mp hmem with hmem | hmem
    · exact hmem
    · obtain ⟨j, hj, hleft⟩ := Slot.mem_entries.mp hmem
      have hdiv := (Slot.ptr_inj hnodup hk hj hptr (hcut.sub _ _ _ hleft)).2
      obtain rfl : k = j := by simpa using hdiv
      have hgone := hcut.gone k hfirst hlast'
      exact absurd (hleft.symm.trans hgone) (Option.some_ne_none b)

/-- Nothing is left if all blocks are cut off. -/
theorem Cut.all {t u : Slot h} (hcut : Cut t 0 (512 ^ h - 1) freed u) : u = .null := by
  by_contra hu
  have hall : ∀ l k, k < 512 ^ h → u.ptr l k = none := by
    intro l
    induction l with
    | zero => exact fun k hk => hcut.gone k (Nat.zero_le k) (by omega)
    | succ l ih =>
      intro k hk
      by_contra hptr
      obtain ⟨j, hj, -, hptr'⟩ := hcut.live l k hk (meets_all hk) hptr
      exact hptr' (ih j hj)
  exact Slot.ptr_root hu (hall h 0 (Nat.pow_pos (by decide)))

/-! ## The sweep over a page -/

section Sweep

variable {sub : ℕ → Slot h → List (ℕ × ℕ) × Bool × Slot h} {node : ℕ → Slot h} {w : Sweep h}

/-- The sweep has come to the slot `j`. -/
structure Swept (sub : ℕ → Slot h → List (ℕ × ℕ) × Bool × Slot h) (firstIndex lastIndex : ℕ)
    (node : ℕ → Slot h) (j : ℕ) (w : Sweep h) : Prop where
  slots : ∀ i, w.node i = if firstIndex ≤ i ∧ i < j ∧ (sub i (node i)).2.1 = false
    then (sub i (node i)).2.2 else node i
  freed : (w.freed : Multiset (ℕ × ℕ)) =
    ∑ i ∈ Finset.Ico firstIndex j, ((sub i (node i)).1 : Multiset (ℕ × ℕ))
  start : w.start = if firstIndex < j ∧ (sub firstIndex (node firstIndex)).2.1 = false
    then firstIndex + 1 else firstIndex
  stop : w.stop = if lastIndex < j ∧ firstIndex ≠ lastIndex ∧
    (sub lastIndex (node lastIndex)).2.1 = false then lastIndex - 1 else lastIndex
  all : w.allRangeFreed = true ↔
    ∀ i, firstIndex ≤ i → i < j → (sub i (node i)).2.1 = true

theorem Swept.step (hsub : ∀ i, sub i .null = ([], true, .null))
    (hw : Swept sub firstIndex lastIndex node j w) (hj : firstIndex ≤ j) :
    Swept sub firstIndex lastIndex node (j + 1) (truncateSlot sub firstIndex lastIndex j w) := by
  have hnode : w.node j = node j := by rw [hw.slots, if_neg (by omega)]
  have hslot : truncateSlot sub firstIndex lastIndex j w =
      if (sub j (node j)).2.1 then { w with freed := (sub j (node j)).1 ++ w.freed } else
      { node := Function.update w.node j (sub j (node j)).2.2
        freed := (sub j (node j)).1 ++ w.freed
        start := if j = firstIndex then w.start + 1 else w.start
        stop := if j ≠ firstIndex ∧ j = lastIndex then w.stop - 1 else w.stop
        allRangeFreed := false } := by
    rw [truncateSlot, hnode]
    split
    · rename_i h
      rw [Slot.isNull_iff.mp h, hsub]
      rfl
    · rcases sub j (node j) with ⟨freed, mpty, c⟩
      cases mpty <;> rfl
  have hfreed : (((sub j (node j)).1 ++ w.freed : List (ℕ × ℕ)) : Multiset (ℕ × ℕ)) =
      ∑ i ∈ Finset.Ico firstIndex (j + 1), ((sub i (node i)).1 : Multiset (ℕ × ℕ)) := by
    rw [Finset.sum_Ico_succ_top hj, ← Multiset.coe_add, hw.freed, add_comm]
  rw [hslot]
  by_cases hmpty : (sub j (node j)).2.1 = true
  · rw [if_pos hmpty]
    refine ⟨fun i => ?_, hfreed, ?_, ?_, ?_⟩
    · rw [hw.slots]
      grind
    · rw [hw.start]
      grind
    · rw [hw.stop]
      grind
    · rw [hw.all]
      grind
  · rw [if_neg hmpty]
    refine ⟨fun i => ?_, hfreed, ?_, ?_, ?_⟩
    · by_cases hi : i = j
      · subst hi
        dsimp only
        rw [Function.update_self, if_pos ⟨hj, Nat.lt_succ_self i, by simpa using hmpty⟩]
      · dsimp only
        rw [Function.update_of_ne hi, hw.slots]
        grind
    · dsimp only
      rw [hw.start]
      grind
    · dsimp only
      rw [hw.stop]
      grind
    · simp only [Bool.false_eq_true, false_iff]
      exact fun h => hmpty (h j hj (Nat.lt_succ_self j))

theorem Swept.run (hsub : ∀ i, sub i .null = ([], true, .null))
    (hw : Swept sub firstIndex lastIndex node j w) (hj : firstIndex ≤ j) :
    Swept sub firstIndex lastIndex node (j + n) (truncateSlots sub firstIndex lastIndex n j w) := by
  induction n generalizing j w with
  | zero => exact hw
  | succ n ih =>
    have h := ih (hw.step hsub hj) (Nat.le_succ_of_le hj)
    rwa [Nat.add_right_comm] at h

/-- What is left behind the slot `i`. -/
def leftAt (sub : ℕ → Slot h → List (ℕ × ℕ) × Bool × Slot h) (node : ℕ → Slot h)
    (firstIndex lastIndex i : ℕ) : Slot h :=
  if firstIndex ≤ i ∧ i ≤ lastIndex then leftOf (sub i (node i)) else node i

/-- The page holds what is left, and is empty if nothing is. -/
theorem truncatePage_spec (hsub : ∀ i, sub i .null = ([], true, .null))
    (hleft : ∀ i c, (sub i c).2.1 = false → (sub i c).2.2 ≠ .null)
    (hmid : ∀ i, firstIndex < i → i < lastIndex → (sub i (node i)).2.1 = true)
    (hle : firstIndex ≤ lastIndex) (hlast : lastIndex < 512) :
    let r := truncatePage sub node firstIndex lastIndex
    (r.1 : Multiset (ℕ × ℕ)) =
      ∑ i ∈ Finset.Ico firstIndex (lastIndex + 1), ((sub i (node i)).1 : Multiset (ℕ × ℕ)) ∧
    (r.2.1 = true → ∀ i < 512, leftAt sub node firstIndex lastIndex i = .null) ∧
    (r.2.1 = false → r.2.2 = leftAt sub node firstIndex lastIndex ∧
      ∃ i < 512, leftAt sub node firstIndex lastIndex i ≠ .null) := by
  have hinit : Swept sub firstIndex lastIndex node firstIndex ⟨node, [], firstIndex, lastIndex, true⟩ :=
    ⟨fun i => by grind, by simp, by grind, by grind, by grind⟩
  have hw := hinit.run (n := lastIndex + 1 - firstIndex) hsub le_rfl
  rw [show firstIndex + (lastIndex + 1 - firstIndex) = lastIndex + 1 by omega] at hw
  rw [truncatePage]
  generalize truncateSlots sub firstIndex lastIndex (lastIndex + 1 - firstIndex) firstIndex
    ⟨node, [], firstIndex, lastIndex, true⟩ = w at hw
  dsimp only
  split
  · rename_i h
    rw [Bool.and_eq_true] at h
    refine ⟨hw.freed, fun _ i hi => ?_, nofun⟩
    have hempty := List.all_eq_true.mp h.2 i (List.mem_range.mpr hi)
    have hall := hw.all.mp h.1
    rw [leftAt]
    split
    · rename_i hin
      rw [leftOf, if_pos (hall i hin.1 (by omega))]
    · rename_i hout
      have hnode : w.node i = node i := by rw [hw.slots, if_neg (by omega)]
      rw [hnode] at hempty
      simpa [hout, Slot.isNull_iff] using hempty
  · rename_i h
    refine ⟨hw.freed, nofun, fun _ => ⟨funext fun i => ?_, ?_⟩⟩
    · have hstart := hw.start
      have hstop := hw.stop
      have hmid := hmid i
      dsimp only
      rw [leftAt, leftOf, hw.slots]
      grind
    · by_contra hnone
      push Not at hnone
      refine h (Bool.and_eq_true _ _ |>.mpr ⟨hw.all.mpr fun i hi hij => ?_, ?_⟩)
      · have hnull := hnone i (by omega)
        rw [leftAt, if_pos ⟨hi, by omega⟩, leftOf] at hnull
        by_contra hmpty
        rw [if_neg hmpty] at hnull
        exact hleft i (node i) (by simpa using hmpty) hnull
      · refine List.all_eq_true.mpr fun i hi => ?_
        have hnull := hnone i (List.mem_range.mp hi)
        by_cases hin : firstIndex ≤ i ∧ i ≤ lastIndex
        · simp [hin]
        · rw [leftAt, if_neg hin] at hnull
          rw [hw.slots, if_neg (by omega), hnull]
          simp [Slot.isNull]

end Sweep

/-! ## The recursion -/

section Page

variable {node left : ℕ → Slot h} {taken : ℕ → Multiset (ℕ × ℕ)}

/-- What is left behind the slots of a page. -/
structure CutSlots (node : ℕ → Slot h) (first last : ℕ) (taken : ℕ → Multiset (ℕ × ℕ))
    (left : ℕ → Slot h) : Prop where
  first_le : first ≤ last
  last_lt : last < 512 ^ (h + 1)
  within : ∀ i, first / 512 ^ h ≤ i → i ≤ last / 512 ^ h →
    Cut (node i) (firstBelow 512 h first i) (lastBelow 512 h last i) (taken i) (left i)
  beside : ∀ i, ¬(first / 512 ^ h ≤ i ∧ i ≤ last / 512 ^ h) → left i = node i

theorem CutSlots.entries (hcut : CutSlots node first last taken left) :
    ∑ i ∈ Finset.Ico (first / 512 ^ h) (last / 512 ^ h + 1), taken i +
      ∑ i ∈ Finset.range 512, (left i).entries = ∑ i ∈ Finset.range 512, (node i).entries := by
  have hlt : last / 512 ^ h < 512 :=
    Nat.div_lt_of_lt_mul (by rw [← pow_succ]; exact hcut.last_lt)
  have hsubset : Finset.Ico (first / 512 ^ h) (last / 512 ^ h + 1) ⊆ Finset.range 512 := by
    intro i hi
    have := Finset.mem_Ico.mp hi
    exact Finset.mem_range.mpr (by omega)
  rw [← Finset.sum_sdiff hsubset (f := fun i => (left i).entries),
    ← Finset.sum_sdiff hsubset (f := fun i => (node i).entries), add_left_comm,
    ← Finset.sum_add_distrib]
  congr 1
  · refine Finset.sum_congr rfl fun i hi => ?_
    have hi := (Finset.mem_sdiff.mp hi).2
    rw [hcut.beside i (by rw [Finset.mem_Ico] at hi; omega)]
  · refine Finset.sum_congr rfl fun i hi => ?_
    have hi := Finset.mem_Ico.mp hi
    exact (hcut.within i hi.1 (by omega)).entries

theorem CutSlots.sub (hcut : CutSlots node first last taken left) (hptr : (left i).ptr l k = some j) :
    (node i).ptr l k = some j := by
  by_cases hi : first / 512 ^ h ≤ i ∧ i ≤ last / 512 ^ h
  · exact (hcut.within i hi.1 hi.2).sub l k j hptr
  · rwa [hcut.beside i hi] at hptr

theorem CutSlots.kept (hcut : CutSlots node first last taken left) (hl : l ≤ h)
    (hmeets : ¬Meets 512 first last l k) :
    (left (k / 512 ^ h)).ptr l (k % 512 ^ h) = (node (k / 512 ^ h)).ptr l (k % 512 ^ h) := by
  by_cases hi : first / 512 ^ h ≤ k / 512 ^ h ∧ k / 512 ^ h ≤ last / 512 ^ h
  · refine (hcut.within _ hi.1 hi.2).kept l _ (Nat.mod_lt _ (Nat.pow_pos (by decide))) ?_
    rwa [← meets_below (by decide) hl hi]
  · rw [hcut.beside _ hi]

theorem CutSlots.gone (hcut : CutSlots node first last taken left) (hfirst : first ≤ k)
    (hlast : k ≤ last) : (left (k / 512 ^ h)).ptr 0 (k % 512 ^ h) = none := by
  have hmeets : Meets 512 first last 0 k := meets_zero.mpr ⟨hfirst, hlast⟩
  have habove := hmeets.above (Nat.zero_le h)
  obtain ⟨hfirst', hlast'⟩ :=
    meets_zero.mp ((meets_below (by decide) (Nat.zero_le h) habove).mp hmeets)
  exact (hcut.within _ habove.1 habove.2).gone _ hfirst' hlast'

/-- The page stays. -/
theorem CutSlots.cut (hcut : CutSlots node first last taken left)
    (hleft : ∃ i < 512, left i ≠ .null) :
    Cut (.page b node) first last
      (∑ i ∈ Finset.Ico (first / 512 ^ h) (last / 512 ^ h + 1), taken i) (.page b left) where
  entries := by
    rw [Slot.entries_page, Slot.entries_page, Multiset.add_cons, hcut.entries]
  sub l k c hptr := by
    rw [Slot.ptr_page] at hptr ⊢
    split
    · rwa [if_pos ‹_›] at hptr
    · rw [if_neg ‹_›] at hptr
      exact hcut.sub hptr
  kept l k hk hmeets := by
    rw [Slot.ptr_page, Slot.ptr_page]
    split
    · rfl
    · by_cases hl : l ≤ h
      · exact hcut.kept hl hmeets
      · have hnone : ∀ t : Slot h, t.ptr l (k % 512 ^ h) = none := fun t => by
          by_contra hptr
          exact hl (Slot.le_of_ptr hptr)
        rw [hnone, hnone]
  gone k hfirst hlast := by
    rw [Slot.ptr_page_of_le (Nat.zero_le h)]
    exact hcut.gone hfirst hlast
  live l k hk hmeets hptr := by
    have hpos : 0 < 512 ^ h := Nat.pow_pos (by decide)
    have hl := Slot.le_of_ptr hptr
    by_cases htop : l = h
    · subst htop
      obtain ⟨i, hi, hne⟩ := hleft
      have hlt : i * 512 ^ l < 512 ^ (l + 1) := by
        rw [pow_succ']
        exact Nat.mul_lt_mul_of_pos_right hi hpos
      refine ⟨i * 512 ^ l, hlt, ?_, ?_⟩
      · rw [Nat.div_eq_of_lt hlt, Nat.div_eq_of_lt hk]
      · rw [Slot.ptr_page_of_le le_rfl, Nat.mul_div_cancel _ hpos]
        exact Slot.ptr_root hne
    · have hlh : l + 1 ≤ h := by omega
      have habove := hmeets.above hlh
      rw [Slot.ptr_page_of_le hlh] at hptr
      obtain ⟨j, hj, hjk, hptr'⟩ := (hcut.within _ habove.1 habove.2).live l _ (Nat.mod_lt k hpos)
        ((meets_below (by decide) hlh habove).mp hmeets) hptr
      obtain ⟨hdiv, hmod⟩ := Slot.mul_add_div_mod hj (k / 512 ^ h)
      refine ⟨k / 512 ^ h * 512 ^ h + j, ?_, ?_, ?_⟩
      · have hslot : k / 512 ^ h < 512 := Nat.div_lt_of_lt_mul (by rwa [← pow_succ])
        have hmul := Nat.mul_le_mul_right (512 ^ h) (show k / 512 ^ h + 1 ≤ 512 by omega)
        rw [Nat.succ_mul] at hmul
        rw [pow_succ']
        omega
      · rw [div_split (by decide) hlh, div_split (by decide) hlh k, hdiv, hmod, hjk]
      · rw [Slot.ptr_page_of_le (by omega), hdiv, hmod]
        exact hptr'

/-- The page goes. -/
theorem CutSlots.cut_null (hcut : CutSlots node first last taken left)
    (hleft : ∀ i < 512, left i = .null) :
    Cut (.page b node) first last
      ((h + 1, b) ::ₘ ∑ i ∈ Finset.Ico (first / 512 ^ h) (last / 512 ^ h + 1), taken i) .null where
  entries := by
    have hsum : ∑ i ∈ Finset.range 512, (left i).entries = 0 :=
      Finset.sum_eq_zero fun i hi => by rw [hleft i (Finset.mem_range.mp hi), Slot.entries_null]
    rw [Slot.entries_null, add_zero, Slot.entries_page, ← hcut.entries, hsum, add_zero]
  sub l k c hptr := by simp at hptr
  kept l k hk hmeets := by
    rw [Slot.ptr_null]
    by_cases hl : l ≤ h
    · have hslot : k / 512 ^ h < 512 := Nat.div_lt_of_lt_mul (by rwa [← pow_succ])
      rw [Slot.ptr_page_of_le hl, ← hcut.kept hl hmeets, hleft _ hslot, Slot.ptr_null]
    · by_contra hptr
      obtain rfl : l = h + 1 := by
        have := Slot.le_of_ptr (Ne.symm hptr)
        omega
      refine hmeets ?_
      have hle := hcut.first_le
      rw [Meets, Nat.div_eq_of_lt hk, Nat.div_eq_of_lt (hle.trans_lt hcut.last_lt)]
      exact ⟨le_rfl, Nat.zero_le _⟩
  gone k _ _ := Slot.ptr_null
  live l k _ _ hptr := absurd Slot.ptr_null hptr

/-- A page is cut as it should be if what is behind its slots is. -/
theorem truncatePage_cut (sub : ℕ → Slot h → List (ℕ × ℕ) × Bool × Slot h) (b : ℕ)
    (node : ℕ → Slot h)
    (hsub : ∀ i, sub i .null = ([], true, .null))
    (hleft : ∀ i c, (sub i c).2.1 = false → (sub i c).2.2 ≠ .null)
    (hle : first ≤ last) (hlast : last < 512 ^ (h + 1))
    (hcut : ∀ i c, Cut c (firstBelow 512 h first i) (lastBelow 512 h last i) (sub i c).1
      (leftOf (sub i c))) :
    let r := truncatePage sub node (first / 512 ^ h) (last / 512 ^ h)
    Cut (.page b node) first last (if r.2.1 then (h + 1, b) ::ₘ (r.1 : Multiset (ℕ × ℕ)) else r.1)
      (leftOf (r.1, r.2.1, .page b r.2.2)) := by
  have hslots : CutSlots node first last (fun i => (sub i (node i)).1)
      (leftAt sub node (first / 512 ^ h) (last / 512 ^ h)) :=
    ⟨hle, hlast, fun i hi hi' => by rw [leftAt, if_pos ⟨hi, hi'⟩]; exact hcut i _,
      fun i hi => if_neg hi⟩
  have hmid : ∀ i, first / 512 ^ h < i → i < last / 512 ^ h → (sub i (node i)).2.1 = true := by
    intro i hi hi'
    have hall := hcut i (node i)
    rw [firstBelow_of_ne (by omega), lastBelow_of_ne (by omega)] at hall
    have hnull := hall.all
    by_contra hmpty
    rw [leftOf, if_neg hmpty] at hnull
    exact hleft i _ (by simpa using hmpty) hnull
  obtain ⟨hfreed, hempty, hstays⟩ := truncatePage_spec hsub hleft hmid (Nat.div_le_div_right hle)
    (Nat.div_lt_of_lt_mul (by rwa [← pow_succ]))
  cases hmpty : (truncatePage sub node (first / 512 ^ h) (last / 512 ^ h)).2.1 with
  | true =>
    simp only [hmpty, if_true, leftOf, hfreed]
    exact hslots.cut_null (hempty hmpty)
  | false =>
    obtain ⟨hnode, hne⟩ := hstays hmpty
    simp only [hmpty, Bool.false_eq_true, if_false, leftOf, hfreed, hnode]
    exact hslots.cut hne

end Page

theorem truncateData_cut (c : Slot 0) :
    Cut c 0 0 (truncateData c).1 (leftOf (truncateData c)) := by
  cases c with
  | null => exact .null
  | data b =>
    refine ⟨rfl, fun _ _ _ h => absurd h (by simp [truncateData, leftOf]), fun l k hk hmeets => ?_,
      fun _ _ _ => Slot.ptr_null, fun _ _ _ _ h => absurd Slot.ptr_null h⟩
    obtain rfl : k = 0 := by simpa using hk
    exact absurd ⟨le_rfl, le_rfl⟩ hmeets

section Child

variable {node : ℕ → Slot h} {r : List (ℕ × ℕ) × Bool × (ℕ → Slot h)}

theorem truncateChild_ne_null : (truncateChild b node r).2.2 ≠ .null := by
  obtain ⟨freed, mpty, node'⟩ := r
  cases mpty <;> nofun

theorem truncateChild_cut
    (hcut : Cut (.page b node) first last
      (if r.2.1 then (h + 1, b) ::ₘ (r.1 : Multiset (ℕ × ℕ)) else r.1)
      (leftOf (r.1, r.2.1, .page b r.2.2))) :
    Cut (.page b node) first last (truncateChild b node r).1 (leftOf (truncateChild b node r)) := by
  obtain ⟨freed, mpty, node'⟩ := r
  cases mpty <;> exact hcut

end Child

/-- What a truncation below a page cuts off. -/
theorem recursiveTruncateBlocks_cut (b : ℕ) (node : ℕ → Slot h) (hle : first ≤ last)
    (hlast : last < 512 ^ (h + 1)) :
    let r := recursiveTruncateBlocks h node first last
    Cut (.page b node) first last (if r.2.1 then (h + 1, b) ::ₘ (r.1 : Multiset (ℕ × ℕ)) else r.1)
      (leftOf (r.1, r.2.1, .page b r.2.2)) := by
  induction h generalizing b first last with
  | zero =>
    have hpage := truncatePage_cut (fun _ => truncateData) b node (fun _ => rfl)
      (fun i c => by cases c <;> simp [truncateData]) hle hlast fun i c => by
        simpa [firstBelow, lastBelow, Nat.mod_one] using truncateData_cut c
    rw [pow_zero, Nat.div_one, Nat.div_one] at hpage
    exact hpage
  | succ h ih =>
    refine truncatePage_cut _ b _ (fun _ => rfl) (fun i c => ?_) hle hlast fun i c => ?_
    · cases c with
      | null => simp
      | page c node => exact fun _ => truncateChild_ne_null
    · cases c with
      | null => exact .null
      | page c node =>
        exact truncateChild_cut (ih c node
          (firstBelow_le (h := h + 1) (by decide : 0 < 512) hle i)
          (lastBelow_lt (by decide : 0 < 512) (h + 1) last i))

/-! ## The whole tree -/

theorem truncateTree_cut (root : Slot h) (hle : first ≤ last) (hlast : last < 512 ^ h) :
    let r := truncateTree first last h root
    Cut root first last r.1 r.2.1 ∧ (r.2.1 ≠ .null → r.2.2 = r.2.1) := by
  cases root with
  | null => cases h <;> exact ⟨.null, fun _ => rfl⟩
  | data b =>
    obtain rfl : last = 0 := by simpa using hlast
    obtain rfl : first = 0 := Nat.le_zero.mp hle
    exact ⟨truncateData_cut (.data b), fun h => absurd rfl h⟩
  | @page h b node =>
    have hcut := recursiveTruncateBlocks_cut b node hle hlast
    revert hcut
    rw [truncateTree]
    rcases recursiveTruncateBlocks h node first last with ⟨freed, mpty, node'⟩
    cases mpty with
    | true => exact fun hcut => ⟨hcut, fun h => absurd rfl h⟩
    | false => exact fun hcut => ⟨hcut, fun _ => rfl⟩

theorem lt_of_div_eq (hl : l ≤ n) (hdiv : k / 512 ^ l = j / 512 ^ l) (hj : j < 512 ^ n) :
    k < 512 ^ n := by
  have hle := div_mono hl hdiv.le
  rw [Nat.div_eq_of_lt hj, Nat.le_zero, Nat.div_eq_zero_iff] at hle
  exact hle.resolve_left (Nat.pow_pos (by decide)).ne'

/-- What is left starts before the cut, or beyond the range. -/
theorem Cut.low {t u : Slot h} (hcut : Cut t first last freed u) (hfirst : first ≤ 512 ^ n)
    (hbeyond : ∀ l k, k < 512 ^ h → t.ptr l k ≠ none → last / 512 ^ l < k / 512 ^ l → k < 512 ^ n)
    (l k : ℕ) (hk : k < 512 ^ h) (hptr : u.ptr l k ≠ none) : k < 512 ^ max l n := by
  have hout : ∀ l k, k < 512 ^ h → u.ptr l k ≠ none → ¬Meets 512 first last l k →
      k < 512 ^ max l n := by
    intro l k hk hptr hmeets
    have hlt : k < 512 ^ n := by
      by_cases hlast : last / 512 ^ l < k / 512 ^ l
      · exact hbeyond l k hk (by rwa [← hcut.kept l k hk hmeets]) hlast
      · have hfirst' : k / 512 ^ l < first / 512 ^ l := by
          by_contra hge
          exact hmeets ⟨by omega, by omega⟩
        exact (Nat.lt_of_div_lt_div hfirst').trans_le hfirst
    exact hlt.trans_le (Nat.pow_le_pow_right (by decide) (le_max_right ..))
  induction l generalizing k with
  | zero =>
    refine hout 0 k hk hptr fun hmeets => ?_
    obtain ⟨hk', hk''⟩ := meets_zero.mp hmeets
    exact hptr (hcut.gone k hk' hk'')
  | succ l ih =>
    by_cases hmeets : Meets 512 first last (l + 1) k
    · obtain ⟨j, hj, hjk, hptr'⟩ := hcut.live l k hk hmeets hptr
      refine lt_of_div_eq (le_max_left ..) hjk.symm ?_
      exact (ih j hj hptr').trans_le
        (Nat.pow_le_pow_right (by decide) (max_le_max_right n (Nat.le_succ l)))
    · exact hout (l + 1) k hk hptr hmeets

/-! ## Height -/

/-- What a tree of `n` levels keeps of one of more levels. -/
structure Lowered (n : ℕ) (u : Slot h) (freed : Multiset (ℕ × ℕ)) (t : (h : ℕ) × Slot h)
    (lost : Multiset (ℕ × ℕ)) : Prop where
  height : t.1 = n
  entries : freed + t.2.entries + lost = u.entries
  ptr : ∀ l k, l ≤ n → k < 512 ^ n → t.2.ptr l k = u.ptr l k
  pages : ∀ p ∈ freed, 0 < p.1
  lost : ∀ p ∈ lost, ∃ k < 512 ^ h, u.ptr p.1 k = some p.2 ∧ 512 ^ max p.1 n ≤ k

theorem Lowered.refl (u : Slot n) : Lowered n u 0 ⟨n, u⟩ 0 :=
  ⟨rfl, by simp, fun _ _ _ _ => rfl, by simp, by simp⟩

/-- The other slots of the old root are lost. -/
theorem Lowered.page {node : ℕ → Slot h} {t : (h : ℕ) × Slot h} {lost : Multiset (ℕ × ℕ)}
    (hn : n ≤ h) (hlow : Lowered n (node 0) freed t lost) :
    ∃ lost', Lowered n (.page b node) ((h + 1, b) ::ₘ freed) t lost' := by
  have hpow : 512 ^ h ≤ 512 ^ (h + 1) := Nat.pow_le_pow_right (by decide) (Nat.le_succ h)
  obtain ⟨others, hentries, hothers⟩ := Slot.entries_slot b node (show 0 < 512 by decide)
  refine ⟨lost + others, hlow.height, ?_, fun l k hl hk => ?_, fun p hp => ?_, fun p hp => ?_⟩
  · rw [hentries, ← hlow.entries, Multiset.cons_add, Multiset.cons_add, add_assoc _ lost]
  · have hlt : k < 512 ^ h := hk.trans_le (Nat.pow_le_pow_right (by decide) hn)
    rw [hlow.ptr l k hl hk, Slot.ptr_page_of_le (hl.trans hn), Nat.div_eq_of_lt hlt,
      Nat.mod_eq_of_lt hlt]
  · rcases Multiset.mem_cons.mp hp with rfl | hp
    · exact Nat.succ_pos h
    · exact hlow.pages p hp
  · rcases Multiset.mem_add.mp hp with hp | hp
    · obtain ⟨k, hk, hptr, hle⟩ := hlow.lost p hp
      have hl := Slot.le_of_ptr (ne_of_eq_of_ne hptr (Option.some_ne_none _))
      refine ⟨k, hk.trans_le hpow, ?_, hle⟩
      rw [Slot.ptr_page_of_le hl, Nat.div_eq_of_lt hk, Nat.mod_eq_of_lt hk, hptr]
    · obtain ⟨i, hi, hne, hp⟩ := (hothers p).mp hp
      obtain ⟨j, hj, hptr⟩ := Slot.mem_entries.mp hp
      have hl := Slot.le_of_ptr (ne_of_eq_of_ne hptr (Option.some_ne_none _))
      obtain ⟨hdiv, hmod⟩ := Slot.mul_add_div_mod hj i
      refine ⟨i * 512 ^ h + j, ?_, ?_, ?_⟩
      · have hmul := Nat.mul_le_mul_right (512 ^ h) (show i + 1 ≤ 512 by omega)
        rw [Nat.succ_mul] at hmul
        rw [pow_succ']
        omega
      · rw [Slot.ptr_page_of_le hl, hdiv, hmod, hptr]
      · calc 512 ^ max p.1 n ≤ 512 ^ h := Nat.pow_le_pow_right (by decide) (max_le hl hn)
          _ ≤ i * 512 ^ h := Nat.le_mul_of_pos_left _ (by omega)
          _ ≤ i * 512 ^ h + j := Nat.le_add_right ..

theorem lowerRoot_stop {u : Slot h} {done : List (ℕ × ℕ)} (hn : h ≤ n) :
    lowerRoot n h u done = some (done, ⟨h, u⟩) := by
  cases h with
  | zero => rw [lowerRoot]
  | succ h => cases u <;> rw [lowerRoot, if_pos hn]

theorem lowerRoot_lowered {u : Slot h} {done out : List (ℕ × ℕ)} {t : (h : ℕ) × Slot h} (hn : n ≤ h)
    (hrun : lowerRoot n h u done = some (out, t)) :
    ∃ freed lost, (out : Multiset (ℕ × ℕ)) = freed + done ∧ Lowered n u freed t lost := by
  induction h, hn using Nat.le_induction generalizing done with
  | base =>
    rw [lowerRoot_stop le_rfl] at hrun
    obtain ⟨rfl, rfl⟩ := Prod.mk.inj (Option.some.inj hrun)
    exact ⟨0, 0, (zero_add _).symm, .refl u⟩
  | succ h hn ih =>
    cases u with
    | null =>
      rw [lowerRoot, if_neg (by omega)] at hrun
      cases hrun
    | page b node =>
      rw [lowerRoot, if_neg (by omega)] at hrun
      obtain ⟨freed, lost, hout, hlow⟩ := ih hrun
      obtain ⟨lost', hlow'⟩ := hlow.page (b := b) hn
      refine ⟨_, lost', ?_, hlow'⟩
      rw [hout, ← Multiset.cons_coe, Multiset.add_cons, Multiset.cons_add]

theorem pmfsDecreaseBtreeHeight_lowered {iBlocks newsize : ℕ} {root u : Slot h}
    {out : List (ℕ × ℕ)} {t : (h : ℕ) × Slot h} (hroot : u ≠ .null → root = u)
    (hcount : u = .null → iBlocks = 0)
    (hrun : pmfsDecreaseBtreeHeight iBlocks newsize root u = some (out, t)) :
    (∃ lost, Lowered t.1 u out t lost) ∧ (u = .null → t = ⟨0, .null⟩) ∧
      (u ≠ .null → iBlocks ≠ 0 ∧ 0 < newsize ∧ t.1 ≤ h ∧
        t.1 = levels ((newsize + 4095) / 4096 - 1)) := by
  rw [pmfsDecreaseBtreeHeight] at hrun
  split at hrun
  · split at hrun
    · rename_i hnull
      obtain rfl := Slot.isNull_iff.mp hnull
      obtain ⟨rfl, rfl⟩ := Prod.mk.inj (Option.some.inj hrun)
      exact ⟨⟨0, rfl, by simp, fun _ _ _ _ => by simp, by simp, by simp⟩, fun _ => rfl,
        fun h => absurd rfl h⟩
    · cases hrun
  · rename_i hne
    have hu : u ≠ .null := fun h => hne (.inl (hcount h))
    have hpos : 0 < newsize := Nat.pos_of_ne_zero fun h => hne (.inr h)
    dsimp only at hrun
    obtain rfl := hroot hu
    have hlower : ∀ hle : levels ((newsize + 4095) / 4096 - 1) ≤ h,
        lowerRoot (levels ((newsize + 4095) / 4096 - 1)) h root [] = some (out, t) →
        (∃ lost, Lowered t.1 root out t lost) ∧ (root = .null → t = ⟨0, .null⟩) ∧
          (root ≠ .null → iBlocks ≠ 0 ∧ 0 < newsize ∧ t.1 ≤ h ∧
            t.1 = levels ((newsize + 4095) / 4096 - 1)) := by
      intro hle hlower
      obtain ⟨freed, lost, hout, hlow⟩ := lowerRoot_lowered hle hlower
      rw [Multiset.coe_nil, add_zero] at hout
      rw [hout, hlow.height]
      exact ⟨⟨lost, hlow⟩, fun h => absurd h hu, fun _ => ⟨fun h => hne (.inl h), hpos, hle, rfl⟩⟩
    split at hrun
    · rename_i heq
      exact hlower heq.ge (by rw [lowerRoot_stop heq.le, hrun])
    · split at hrun
      · cases hrun
      · exact hlower (by omega) hrun

/-! ## Files -/

section File

variable {f f' : File} {mounting : Bool} {start stop newsize : ℕ}

/-- Only the flag may change. -/
theorem checkEofBlocks_eq (f : File) (n : ℕ) : f.checkEofBlocks n = { f with
    eofblocks := f.eofblocks && decide (n + 4096 ≤ f.iBlocks * 4096) } := by
  obtain ⟨height, root, iSize, iBlocks, eofblocks, iMode⟩ := f
  rw [checkEofBlocks]
  split
  · rename_i h
    simp [Nat.not_le.mpr h.2]
  · rename_i h
    cases eofblocks with
    | false => rfl
    | true =>
      have hle : n + 4096 ≤ iBlocks * 4096 := by simpa using h
      simp [hle]

/-- What a truncation does where it does something. -/
structure Truncates (mounting : Bool) (f : File) (start last : ℕ) (out : List (ℕ × ℕ))
    (f' : File) (u : Slot f.height) (t : (h : ℕ) × Slot h) (freed pages lost : Multiset (ℕ × ℕ)) :
    Prop where
  first_le : truncateFirst start ≤ last
  last_lt : last < 512 ^ f.height
  cut : Cut f.root (truncateFirst start) last freed u
  lowered : Lowered t.1 u pages t lost
  out_eq : (out : Multiset (ℕ × ℕ)) = pages + freed
  start_le : u ≠ .null → 0 < start ∧ truncateFirst start ≤ 512 ^ t.1
  height_le : t.1 ≤ f.height
  null : u = .null → t = ⟨0, .null⟩
  left : u ≠ .null → (if mounting then numData u.entries else f.iBlocks - numData freed) ≠ 0
  file : f' = checkEofBlocks { f with
    height := t.1
    root := t.2
    iBlocks := if mounting then numData u.entries else f.iBlocks - numData freed } f.iSize

theorem truncateLast_lt (hlast : f.truncateLast stop = some last) : last < 512 ^ f.height := by
  have hpos : 0 < 512 ^ f.height := Nat.pow_pos (by decide)
  rw [truncateLast] at hlast
  split at hlast
  · cases hlast
    omega
  · split at hlast
    · cases hlast
    · obtain rfl := Option.some.inj hlast
      rw [pmfsSparseLastBlocknr]
      split <;> omega

theorem pmfsTruncateBlocks_cases {out : List (ℕ × ℕ)}
    (hcount : mounting = true ∨ f.iBlocks = numData f.root.entries)
    (hrun : pmfsTruncateBlocks mounting f start stop = some (out, f')) :
    (out = [] ∧ f' = f ∧ (f.root = .null ∨
      ∀ last, f.truncateLast stop = some last → last < truncateFirst start)) ∨
    ∃ last u t freed pages lost, f.truncateLast stop = some last ∧
      Truncates mounting f start last out f' u t freed pages lost := by
  rw [pmfsTruncateBlocks] at hrun
  split at hrun
  · rename_i hnull
    obtain ⟨rfl, rfl⟩ := Prod.mk.inj (Option.some.inj hrun)
    exact .inl ⟨rfl, rfl, .inl (Slot.isNull_iff.mp hnull)⟩
  · cases hlast : f.truncateLast stop with
    | none =>
      rw [hlast] at hrun
      obtain ⟨rfl, rfl⟩ := Prod.mk.inj (Option.some.inj hrun)
      exact .inl ⟨rfl, rfl, .inr nofun⟩
    | some last =>
      rw [hlast] at hrun
      dsimp only at hrun
      split at hrun
      · rename_i hlt
        obtain ⟨rfl, rfl⟩ := Prod.mk.inj (Option.some.inj hrun)
        refine .inl ⟨rfl, rfl, .inr fun last' h => ?_⟩
        obtain rfl := Option.some.inj h
        exact hlt
      · rename_i hle
        have hlt := truncateLast_lt hlast
        obtain ⟨hcut, hroot⟩ := truncateTree_cut f.root (show truncateFirst start ≤ last by omega) hlt
        revert hrun hcut hroot
        rcases truncateTree (truncateFirst start) last f.height f.root with ⟨freed, u, root⟩
        dsimp only
        intro hrun hcut hroot
        obtain ⟨⟨out', t⟩, hdecrease, heq⟩ := Option.map_eq_some_iff.mp hrun
        obtain ⟨rfl, rfl⟩ := Prod.mk.inj heq
        have hempty : u = .null → (if mounting = true then u.countIblocks
            else f.iBlocks - freed.countP fun p => p.1 = 0) = 0 := by
          rintro rfl
          have hentries := congrArg numData hcut.entries
          rw [Slot.entries_null, add_zero, numData_coe] at hentries
          split
          · rw [Slot.countIblocks_eq, Slot.entries_null, map_zero]
          · rename_i hmounting
            rw [hcount.resolve_left hmounting, ← hentries]
            exact Nat.sub_self _
        obtain ⟨⟨lost, hlow⟩, hnull, hstart⟩ :=
          pmfsDecreaseBtreeHeight_lowered hroot hempty hdecrease
        refine .inr ⟨last, u, t, freed, out', lost, rfl, by omega, hlt, hcut, hlow, ?_, ?_, ?_,
          hnull, ?_, ?_⟩
        · rw [Multiset.coe_add]
        · intro hu
          obtain ⟨-, hpos, -, hheight⟩ := hstart hu
          have := levels_le_iff.mp hheight.ge
          rw [truncateFirst]
          exact ⟨hpos, by omega⟩
        · by_cases hu : u = .null
          · rw [hnull hu]
            exact Nat.zero_le _
          · exact (hstart hu).2.2.1
        · intro hu
          rw [numData_coe, ← Slot.countIblocks_eq]
          exact (hstart hu).1
        · rw [numData_coe, ← Slot.countIblocks_eq]

/-- The blocks that a truncation is to free. -/
def InCut (f : File) (start stop k : ℕ) : Prop :=
  truncateFirst start ≤ k ∧ ∃ last, f.truncateLast stop = some last ∧ k ≤ last

/-- A truncation gives back the blocks of its range, and the others are where they were. -/
structure Truncated (f : File) (start stop : ℕ) (out : List (ℕ × ℕ)) (f' : File) : Prop where
  data : ∀ b, (0, b) ∈ out ↔ ∃ k, InCut f start stop k ∧ pmfsFindDataBlock f k = some b
  once : (out.map Prod.snd).Nodup
  below : ∀ k, k < truncateFirst start → pmfsFindDataBlock f' k = pmfsFindDataBlock f k
  gone : ∀ k, InCut f start stop k → pmfsFindDataBlock f' k = none
  iBlocks : f.iBlocks = numData f.root.entries → f'.iBlocks + out.countP (fun p => p.1 = 0) = f.iBlocks

/-- The pages that leave the tree are given back. -/
def GivesPages (f : File) (out : List (ℕ × ℕ)) (f' : File) : Prop :=
  ∀ l b, 0 < l → ((l, b) ∈ out ↔ (l, b) ∈ f.root.entries ∧ (l, b) ∉ f'.root.entries)

/-- Nothing that starts beyond the range is outside of the blocks of the new height. -/
def NoneBeyond (f : File) (stop : ℕ) (f' : File) : Prop :=
  ∀ last, f.truncateLast stop = some last →
    ∀ l k, f.ptr l k ≠ none → last / 512 ^ l < k / 512 ^ l → k < 512 ^ max 1 f'.height

namespace Truncates

variable {out : List (ℕ × ℕ)} {u : Slot f.height} {t : (h : ℕ) × Slot h}
  {pages lost : Multiset (ℕ × ℕ)}

theorem ptr (hcuts : Truncates mounting f start last out f' u t freed pages lost) (l k : ℕ) :
    f'.ptr l k = treePtr t l k := by
  rw [hcuts.file, checkEofBlocks_eq]
  rfl

theorem root (hcuts : Truncates mounting f start last out f' u t freed pages lost) :
    f'.root.entries = t.2.entries := by
  rw [hcuts.file, checkEofBlocks_eq]

theorem height (hcuts : Truncates mounting f start last out f' u t freed pages lost) :
    f'.height = t.1 := by
  rw [hcuts.file, checkEofBlocks_eq]

/-- The pointers to blocks that there are after the height is reduced were there before. -/
theorem sub (hcuts : Truncates mounting f start last out f' u t freed pages lost)
    (hptr : treePtr t 0 k = some b) : u.ptr 0 k = some b := by
  have hk := lt_of_treePtr (ne_of_eq_of_ne hptr (Option.some_ne_none b))
  rwa [treePtr_of_lt hk, hcuts.lowered.ptr 0 k (Nat.zero_le _) hk] at hptr

theorem total (hcuts : Truncates mounting f start last out f' u t freed pages lost) :
    (out : Multiset (ℕ × ℕ)) + t.2.entries + lost = f.root.entries := by
  rw [hcuts.out_eq, ← hcuts.cut.entries, ← hcuts.lowered.entries]
  ext p
  simp only [Multiset.count_add]
  omega

/-- The blocks before the cut are found as before. -/
theorem below (hcuts : Truncates mounting f start last out f' u t freed pages lost)
    (hk : k < truncateFirst start) : treePtr t 0 k = f.root.ptr 0 k := by
  have hlt : k < 512 ^ f.height := by
    have := hcuts.first_le
    have := hcuts.last_lt
    omega
  rw [← hcuts.cut.kept 0 k hlt fun hmeets => by have := (meets_zero.mp hmeets).1; omega]
  cases hptr : u.ptr 0 k with
  | none =>
    by_contra hne
    obtain ⟨b, hb⟩ := Option.ne_none_iff_exists'.mp hne
    exact absurd (hptr.symm.trans (hcuts.sub hb)) (Option.some_ne_none b).symm
  | some b =>
    have hne := ne_of_eq_of_ne hptr (Option.some_ne_none b)
    have hkt : k < 512 ^ t.1 :=
      hk.trans_le (hcuts.start_le (Slot.isNull_eq_false_of_ptr hne)).2
    rw [treePtr_of_lt hkt, hcuts.lowered.ptr 0 k (Nat.zero_le _) hkt, hptr]

/-- The blocks that are freed, or left, are counted. -/
theorem iBlocks (hcuts : Truncates mounting f start last out f' u t freed pages lost)
    (hcount : f.iBlocks = numData f.root.entries) :
    f'.iBlocks + numData freed = f.iBlocks := by
  have hentries := congrArg numData hcuts.cut.entries
  rw [map_add] at hentries
  rw [hcuts.file, checkEofBlocks_eq]
  dsimp only
  split <;> omega

/-- Nothing but blocks of data is lost with the old roots. -/
theorem lost_data (hcuts : Truncates mounting f start last out f' u t freed pages lost)
    (hbeyond : ∀ l k, f.ptr l k ≠ none → last / 512 ^ l < k / 512 ^ l → k < 512 ^ max 1 t.1)
    (p : ℕ × ℕ) (hp : p ∈ lost) : p.1 = 0 := by
  obtain ⟨k, hk, hptr, hle⟩ := hcuts.lowered.lost p hp
  have hptr := ne_of_eq_of_ne hptr (Option.some_ne_none _)
  have hu : u ≠ .null := Slot.isNull_eq_false_of_ptr hptr
  have hfirst : truncateFirst start ≤ 512 ^ max 1 t.1 := (hcuts.start_le hu).2.trans
    (Nat.pow_le_pow_right (by decide) (le_max_right 1 t.1))
  have hlt := hcuts.cut.low hfirst (fun l k hk hptr => hbeyond l k (by rwa [ptr_of_lt hk])) _ k hk hptr
  by_contra hpos
  rw [show max p.1 (max 1 t.1) = max p.1 t.1 by omega] at hlt
  omega

theorem apart (hcuts : Truncates mounting f start last out f' u t freed pages lost)
    (hf : f.WellFormed) : (out.map Prod.snd).Nodup ∧
      ∀ l b, (l, b) ∈ out → (l, b) ∉ t.2.entries := by
  have hnodup := hf.nodup
  rw [← hcuts.total, Multiset.map_add, Multiset.map_add] at hnodup
  obtain ⟨hnodup, -, -⟩ := Multiset.nodup_add.mp hnodup
  obtain ⟨honce, -, hapart⟩ := Multiset.nodup_add.mp hnodup
  exact ⟨Multiset.coe_nodup.mp honce, fun l b hout ht => Multiset.disjoint_left.mp hapart
    (Slot.mem_map_of_mem (Multiset.mem_coe.mpr hout)) (Slot.mem_map_of_mem ht)⟩

theorem truncated (hcuts : Truncates mounting f start last out f' u t freed pages lost)
    (hf : f.WellFormed) (hlast : f.truncateLast stop = some last) :
    Truncated f start stop out f' := by
  have hin : ∀ k, InCut f start stop k ↔ truncateFirst start ≤ k ∧ k ≤ last := by
    intro k
    simp [InCut, hlast]
  have hlt := hcuts.last_lt
  have hdata : ∀ b, (0, b) ∈ out ↔ (0, b) ∈ freed := by
    intro b
    rw [← Multiset.mem_coe, hcuts.out_eq, Multiset.mem_add]
    exact or_iff_right fun hb => absurd (hcuts.lowered.pages _ hb) (Nat.lt_irrefl 0)
  refine ⟨fun b => ?_, (hcuts.apart hf).1, fun k hk => ?_, fun k hk => ?_, fun hblocks => ?_⟩
  · rw [hdata, hcuts.cut.mem_freed_iff hf.nodup hlt]
    refine exists_congr fun k => ?_
    rw [hin, and_assoc]
    refine and_congr_right fun _ => and_congr_right fun hk => ?_
    rw [pmfsFindDataBlock_eq, ptr_of_lt (by omega)]
  · have hle := hcuts.first_le
    rw [pmfsFindDataBlock_eq, pmfsFindDataBlock_eq, hcuts.ptr, hcuts.below hk, ptr_of_lt (by omega)]
  · rw [hin] at hk
    rw [pmfsFindDataBlock_eq, hcuts.ptr]
    by_contra hptr
    obtain ⟨b, hb⟩ := Option.ne_none_iff_exists'.mp hptr
    have hgone := hcuts.cut.gone k hk.1 hk.2
    rw [hcuts.sub hb] at hgone
    cases hgone
  · have hpages : numData pages = 0 := Multiset.countP_eq_zero.mpr fun p hp =>
      (hcuts.lowered.pages p hp).ne'
    rw [← numData_coe, hcuts.out_eq, map_add, hpages, zero_add, hcuts.iBlocks hblocks]

theorem givesPages (hcuts : Truncates mounting f start last out f' u t freed pages lost)
    (hf : f.WellFormed)
    (hbeyond : ∀ l k, f.ptr l k ≠ none → last / 512 ^ l < k / 512 ^ l → k < 512 ^ max 1 t.1) :
    GivesPages f out f' := by
  intro l b hl
  rw [hcuts.root, ← hcuts.total, Multiset.mem_add, Multiset.mem_add, Multiset.mem_coe]
  constructor
  · exact fun hout => ⟨.inl (.inl hout), (hcuts.apart hf).2 l b hout⟩
  · rintro ⟨(hout | ht) | hlost, hnot⟩
    · exact hout
    · exact absurd ht hnot
    · exact absurd (hcuts.lost_data hbeyond _ hlost) (by dsimp only; omega)

end Truncates

/-- A truncation cuts off its range. It gives back the pages that leave the tree if there is nothing
beyond the range that leaves it, too. -/
theorem pmfsTruncateBlocks_truncated {out : List (ℕ × ℕ)} (hf : f.WellFormed)
    (hcount : mounting = true ∨ f.iBlocks = numData f.root.entries)
    (hrun : pmfsTruncateBlocks mounting f start stop = some (out, f')) :
    Truncated f start stop out f' ∧ (NoneBeyond f stop f' → GivesPages f out f') := by
  rcases pmfsTruncateBlocks_cases hcount hrun with ⟨rfl, rfl, hnone⟩ | h
  · have hout : ∀ k, InCut f' start stop k → pmfsFindDataBlock f' k = none := by
      rintro k ⟨hk, last, hlast, hk'⟩
      rcases hnone with hnull | hnone
      · rw [pmfsFindDataBlock_eq, ptr, treePtr, hnull]
        split <;> simp
      · have := hnone last hlast
        omega
    refine ⟨⟨fun b => ⟨fun h => absurd h List.not_mem_nil, ?_⟩, by simp, fun _ _ => rfl, hout, fun _ => rfl⟩,
      fun _ l b _ => ⟨fun h => absurd h List.not_mem_nil, fun h => absurd h.1 h.2⟩⟩
    rintro ⟨k, hk, hb⟩
    rw [hout k hk] at hb
    cases hb
  · obtain ⟨last, u, t, freed, pages, lost, hlast, hcuts⟩ := h
    exact ⟨hcuts.truncated hf hlast, fun hbeyond =>
      hcuts.givesPages hf fun l k => hcuts.height ▸ hbeyond last hlast l k⟩

/-- There is nothing else in a tree that keeps its height. -/
theorem noneBeyond_of_height_le (hle : f.height ≤ max 1 f'.height) : NoneBeyond f stop f' :=
  fun _ _ _ _ hptr _ => (lt_of_ptr hptr).trans_le (Nat.pow_le_pow_right (by decide) hle)

/-- Blocks 0 to 2, of which the first stays. -/
theorem pmfsTruncateBlocks_truncated_first : ∃ out f',
    Truncated ⟨1, pageOf 10 [.data 20, .data 21, .data 22], 4096, 3, false, 0⟩ 4096 12288 out f' ∧
    GivesPages ⟨1, pageOf 10 [.data 20, .data 21, .data 22], 4096, 3, false, 0⟩ out f' := by
  have hentries : (pageOf 10 [.data 20, .data 21, .data 22] : Slot 1).entries =
      {(1, 10), (0, 20), (0, 21), (0, 22)} := entries_pageOf (by decide)
  have hwell : WellFormed ⟨1, pageOf 10 [.data 20, .data 21, .data 22], 4096, 3, false, 0⟩ :=
    ⟨by decide, nofun, by rw [hentries]; decide, by rw [hentries]; decide⟩
  have hrun : (pmfsTruncateBlocks false
      ⟨1, pageOf 10 [.data 20, .data 21, .data 22], 4096, 3, false, 0⟩ 4096 12288).isSome := by
    decide +kernel
  obtain ⟨⟨out, f'⟩, hrun⟩ := Option.isSome_iff_exists.mp hrun
  obtain ⟨hcut, hpages⟩ := pmfsTruncateBlocks_truncated hwell (.inr (by rw [hentries]; rfl)) hrun
  exact ⟨out, f', hcut, hpages (noneBeyond_of_height_le (le_max_left ..))⟩

end File

/-- Blocks 0, 1 and 512: there is a page for the last one alone. -/
@[irreducible] def spreadRoot : Slot 2 := pageOf 10 [pageOf 11 [.data 20, .data 21], pageOf 12 [.data 22]]

theorem spreadRoot_entries : spreadRoot.entries =
    {(2, 10), (1, 11), (0, 20), (0, 21), (1, 12), (0, 22)} := by
  rw [spreadRoot, entries_pageOf (by decide), List.map_cons, List.map_cons,
    entries_pageOf (by decide), entries_pageOf (by decide)]
  rfl

def spread : File := ⟨2, spreadRoot, 4096, 3, false, 0⟩

theorem spread_wellFormed : spread.WellFormed := by
  have hentries : spread.root.entries = _ := spreadRoot_entries
  refine ⟨Nat.le_succ 2, by decide +kernel, ?_, ?_⟩
  · rw [hentries]
    decide
  · rw [hentries]
    decide

/-- Without the flag the page for the block 512 is lost: it is beyond the old end, and the tree gets
lower. -/
theorem not_truncated_spread : ¬ ∀ (f f' : File) (start stop : ℕ) (out : List (ℕ × ℕ)),
    f.WellFormed → f.iBlocks = numData f.root.entries →
    pmfsTruncateBlocks false f start stop = some (out, f') →
    Truncated f start stop out f' ∧ GivesPages f out f' := by
  intro h
  have hentries : spread.root.entries = _ := spreadRoot_entries
  have hrun : (pmfsTruncateBlocks false spread 4096 8192).map
      (fun r => (r.1, r.2.height)) = some ([(1, 11), (2, 10), (0, 21)], 0) := by decide +kernel
  obtain ⟨⟨out, f'⟩, hrun, heq⟩ := Option.map_eq_some_iff.mp hrun
  obtain ⟨rfl, hheight⟩ := Prod.mk.inj heq
  obtain ⟨-, hpages⟩ := h _ _ _ _ _ spread_wellFormed (by rw [hentries]; rfl) hrun
  have hin : (1, 12) ∈ spread.root.entries := by
    rw [hentries]
    decide
  have hout : (1, 12) ∉ f'.root.entries := by
    rw [Slot.mem_entries]
    rintro ⟨k, hk, hptr⟩
    have hle := Slot.le_of_ptr (ne_of_eq_of_ne hptr (Option.some_ne_none _))
    dsimp only at hheight hle
    omega
  exact absurd ((hpages 1 12 Nat.one_pos).mpr ⟨hin, hout⟩) (by decide)

end Wpmfs.File
