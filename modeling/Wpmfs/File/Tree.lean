import Mathlib.Algebra.BigOperators.Group.Finset.Piecewise
import Mathlib.Algebra.Order.BigOperators.Group.Multiset
import Mathlib.Algebra.Order.Group.Multiset
import Mathlib.Algebra.Order.Ring.Int
import Mathlib.Algebra.Order.Ring.Nat
import Mathlib.Data.Multiset.Count
import Wpmfs.File.Basic
import Wpmfs.Library.Spans

/-!
# Trees as sets of pointers

A block tree is known by its pointers: by the level of each, the blocks that it leads to, and its
offset. The pointer of the level `l` that leads to the block `k` is the same for all blocks that
share `k / 512 ^ l`.
-/

namespace Wpmfs.File

open Spans

variable {h l k j n m b : ℕ}

namespace Slot

/-- The pointer of the level `l` on the way to the block `k`. -/
def ptr : {h : ℕ} → Slot h → (l k : ℕ) → Option ℕ
  | _, null, _, _ => none
  | _, data b, l, _ => if l = 0 then some b else none
  | h + 1, page b node, l, k =>
    if l = h + 1 then some b else (node (k / 512 ^ h)).ptr l (k % 512 ^ h)

/-- All pointers, with their levels. -/
def entries : {h : ℕ} → Slot h → Multiset (ℕ × ℕ)
  | _, null => 0
  | _, data b => {(0, b)}
  | h + 1, page b node => (h + 1, b) ::ₘ ∑ i ∈ Finset.range 512, (node i).entries

@[simp] theorem ptr_null : (null : Slot h).ptr l k = none := by
  cases h <;> rfl

@[simp] theorem entries_null : (null : Slot h).entries = 0 := by
  cases h <;> rfl

theorem ptr_page {node : ℕ → Slot h} : (page b node).ptr l k =
    if l = h + 1 then some b else (node (k / 512 ^ h)).ptr l (k % 512 ^ h) := rfl

theorem entries_page {node : ℕ → Slot h} : (page b node).entries =
    (h + 1, b) ::ₘ ∑ i ∈ Finset.range 512, (node i).entries := rfl

theorem isNull_iff {t : Slot h} : t.isNull = true ↔ t = null := by
  cases t <;> simp [isNull]

theorem le_of_ptr {t : Slot h} (ht : t.ptr l k ≠ none) : l ≤ h := by
  induction t generalizing k with
  | null => exact absurd ptr_null ht
  | data b =>
    by_contra hl
    exact ht (if_neg (by omega))
  | page b node ih =>
    rw [ptr_page] at ht
    split at ht
    · omega
    · exact (ih _ ht).trans (Nat.le_succ _)

/-- Below the root pointer. -/
theorem ptr_page_of_le {node : ℕ → Slot h} (hl : l ≤ h) :
    (page b node).ptr l k = (node (k / 512 ^ h)).ptr l (k % 512 ^ h) :=
  if_neg (by omega)

/-- A lookup follows the pointers down to a block. -/
theorem find_eq {t : Slot h} : t.find k = t.ptr 0 k := by
  induction t generalizing k with
  | null => cases h <;> rfl
  | data b => rfl
  | page b node ih => exact ih _

theorem isNull_eq_false_of_ptr {t : Slot h} (ht : t.ptr l k ≠ none) : t ≠ null := by
  rintro rfl
  exact ht ptr_null

/-- A root that is not null is a pointer to all blocks. -/
theorem ptr_root {t : Slot h} (ht : t ≠ null) : t.ptr h k ≠ none := by
  cases t with
  | null => exact absurd rfl ht
  | data b => simp [ptr]
  | page b node => simp [ptr]

theorem mem_entries {t : Slot h} {p : ℕ × ℕ} :
    p ∈ t.entries ↔ ∃ k < 512 ^ h, t.ptr p.1 k = some p.2 := by
  induction t with
  | null => simp
  | data b =>
    obtain ⟨l, c⟩ := p
    simp only [entries, Multiset.mem_singleton, Prod.mk.injEq, ptr, pow_zero, Nat.lt_one_iff,
      exists_eq_left]
    grind
  | @page h b node ih =>
    have hpos : 0 < 512 ^ h := Nat.pow_pos (by decide)
    rw [entries_page, Multiset.mem_cons, Multiset.mem_sum]
    constructor
    · rintro (rfl | ⟨i, hi, hp⟩)
      · exact ⟨0, Nat.pow_pos (by decide), by simp [ptr_page]⟩
      · obtain ⟨k, hk, hptr⟩ := (ih i).mp hp
        have hl : p.1 ≤ h := le_of_ptr (by rw [hptr]; exact Option.some_ne_none _)
        refine ⟨i * 512 ^ h + k, ?_, ?_⟩
        · have hmul : (i + 1) * 512 ^ h ≤ 512 * 512 ^ h :=
            Nat.mul_le_mul_right _ (Finset.mem_range.mp hi)
          rw [Nat.succ_mul] at hmul
          rw [pow_succ']
          omega
        · have hdiv : (i * 512 ^ h + k) / 512 ^ h = i := by
            rw [Nat.mul_comm, Nat.mul_add_div hpos, Nat.div_eq_of_lt hk, Nat.add_zero]
          have hmod : (i * 512 ^ h + k) % 512 ^ h = k := by
            rw [Nat.mul_comm, Nat.mul_add_mod, Nat.mod_eq_of_lt hk]
          rw [ptr_page_of_le hl, hdiv, hmod, hptr]
    · rintro ⟨k, hk, hptr⟩
      rw [ptr_page] at hptr
      split at hptr
      · rename_i hl
        exact .inl (Prod.ext hl (Option.some.inj hptr).symm)
      · refine .inr ⟨k / 512 ^ h, ?_, (ih _).mpr ⟨k % 512 ^ h, Nat.mod_lt _ hpos, hptr⟩⟩
        exact Finset.mem_range.mpr (Nat.div_lt_of_lt_mul (by rwa [← pow_succ]))

theorem mul_add_div_mod (hk : k < 512 ^ h) (i : ℕ) :
    (i * 512 ^ h + k) / 512 ^ h = i ∧ (i * 512 ^ h + k) % 512 ^ h = k := by
  have hpos : 0 < 512 ^ h := Nat.pow_pos (by decide)
  rw [Nat.mul_comm]
  exact ⟨by rw [Nat.mul_add_div hpos, Nat.div_eq_of_lt hk, Nat.add_zero],
    by rw [Nat.mul_add_mod, Nat.mod_eq_of_lt hk]⟩

/-- A page as one of its slots, and the others. -/
theorem entries_slot (b : ℕ) (node : ℕ → Slot h) (hj : j < 512) : ∃ others,
    (page b node).entries = (h + 1, b) ::ₘ ((node j).entries + others) ∧
    ∀ p, p ∈ others ↔ ∃ i < 512, i ≠ j ∧ p ∈ (node i).entries := by
  refine ⟨∑ i ∈ (Finset.range 512).erase j, (node i).entries, ?_, fun p => ?_⟩
  · rw [entries_page, Finset.add_sum_erase _ (fun i => (node i).entries) (Finset.mem_range.mpr hj)]
  · simp only [Multiset.mem_sum, Finset.mem_erase, Finset.mem_range]
    grind

theorem mem_entries_of_ptr {t : Slot h} (hk : k < 512 ^ h) (hptr : t.ptr l k = some b) :
    (l, b) ∈ t.entries := mem_entries.mpr ⟨k, hk, hptr⟩

theorem mem_map_of_mem {s : Multiset (ℕ × ℕ)} (hs : (l, b) ∈ s) : b ∈ s.map Prod.snd :=
  Multiset.mem_map.mpr ⟨(l, b), hs, rfl⟩

/-- Where no block has two uses, a pointer is known by the block. -/
theorem ptr_inj {t : Slot h} (hnodup : (t.entries.map Prod.snd).Nodup) (hk : k < 512 ^ h)
    (hj : j < 512 ^ h) (hkb : t.ptr l k = some b) (hjb : t.ptr m j = some b) :
    l = m ∧ k / 512 ^ l = j / 512 ^ l := by
  induction t generalizing k j with
  | null => simp at hkb
  | data c =>
    have hl := le_of_ptr (ne_of_eq_of_ne hkb (Option.some_ne_none b))
    have hm := le_of_ptr (ne_of_eq_of_ne hjb (Option.some_ne_none b))
    obtain rfl : k = 0 := by simpa using hk
    obtain rfl : j = 0 := by simpa using hj
    exact ⟨by omega, rfl⟩
  | @page h c node ih =>
    have hpos : 0 < 512 ^ h := Nat.pow_pos (by decide)
    have hslot : ∀ k, k < 512 ^ (h + 1) → k / 512 ^ h < 512 := fun k hk =>
      Nat.div_lt_of_lt_mul (by rwa [← pow_succ])
    obtain ⟨others, hentries, hothers⟩ := entries_slot c node (hslot k hk)
    rw [hentries, Multiset.map_cons, Multiset.map_add, Multiset.nodup_cons] at hnodup
    obtain ⟨hroot, hnodup⟩ := hnodup
    have hne : ∀ l k, k < 512 ^ (h + 1) → l ≤ h → (page c node).ptr l k ≠ some c := by
      intro l i hi hl hptr
      rw [ptr_page_of_le hl] at hptr
      have hmem := mem_entries_of_ptr (Nat.mod_lt i hpos) hptr
      refine hroot (Multiset.mem_add.mpr ?_)
      by_cases hik : i / 512 ^ h = k / 512 ^ h
      · rw [hik] at hmem
        exact .inl (mem_map_of_mem hmem)
      · exact .inr (mem_map_of_mem ((hothers _).mpr ⟨_, hslot i hi, hik, hmem⟩))
    by_cases hl : l = h + 1
    · obtain rfl : c = b := Option.some.inj (by rw [← hkb, ptr_page, if_pos hl])
      have hm : ¬m ≤ h := fun hm => hne m j hj hm hjb
      have hm' := le_of_ptr (ne_of_eq_of_ne hjb (Option.some_ne_none c))
      subst hl
      exact ⟨by omega, by rw [Nat.div_eq_of_lt hk, Nat.div_eq_of_lt hj]⟩
    · by_cases hm : m = h + 1
      · obtain rfl : c = b := Option.some.inj (by rw [← hjb, ptr_page, if_pos hm])
        have hl' := le_of_ptr (ne_of_eq_of_ne hkb (Option.some_ne_none c))
        exact absurd hkb (hne l k hk (by omega))
      · have hlh : l ≤ h := by
          have := le_of_ptr (ne_of_eq_of_ne hkb (Option.some_ne_none b))
          omega
        have hmh : m ≤ h := by
          have := le_of_ptr (ne_of_eq_of_ne hjb (Option.some_ne_none b))
          omega
        rw [ptr_page_of_le hlh] at hkb
        rw [ptr_page_of_le hmh] at hjb
        have hnodup := Multiset.nodup_add.mp hnodup
        have hdiv : j / 512 ^ h = k / 512 ^ h := by
          by_contra hjk
          refine Multiset.disjoint_left.mp hnodup.2.2
            (mem_map_of_mem (mem_entries_of_ptr (Nat.mod_lt k hpos) hkb)) ?_
          exact mem_map_of_mem ((hothers _).mpr ⟨_, hslot j hj, hjk,
            mem_entries_of_ptr (Nat.mod_lt j hpos) hjb⟩)
        rw [hdiv] at hjb
        obtain ⟨rfl, hmod⟩ := ih _ hnodup.1 (Nat.mod_lt k hpos) (Nat.mod_lt j hpos) hkb hjb
        exact ⟨rfl, by rw [div_split (by decide) hlh, div_split (by decide) hlh j, hdiv, hmod]⟩

/-! ## Changes of one slot -/

section Update

variable {node : ℕ → Slot h} {t : Slot h}

theorem ptr_update_of_ne (hk : k / 512 ^ h ≠ j) :
    (page b (Function.update node j t)).ptr l k = (page b node).ptr l k := by
  rw [ptr_page, ptr_page, Function.update_of_ne hk]

theorem ptr_update_of_eq (hk : k / 512 ^ h = j) (hl : l ≤ h) :
    (page b (Function.update node j t)).ptr l k = t.ptr l (k % 512 ^ h) := by
  rw [ptr_page_of_le hl, hk, Function.update_self]

theorem entries_update (b : ℕ) (node : ℕ → Slot h) (hj : j < 512) :
    (page b (Function.update node j t)).entries + (node j).entries =
      (page b node).entries + t.entries := by
  have hmem := Finset.mem_range.mpr hj
  have hnode := Finset.sum_erase_add (Finset.range 512) (fun i => (node i).entries) hmem
  rw [entries_page, entries_page, ← hnode,
    Finset.sum_congr rfl fun i _ => Function.apply_update (fun _ => entries) node j t i,
    Finset.sum_update_of_mem hmem, Finset.sdiff_singleton_eq_erase, Multiset.cons_add,
    Multiset.cons_add, add_comm t.entries, add_right_comm]

end Update

end Slot

/-- How many of the pointers lead to a block of data. -/
def numData : Multiset (ℕ × ℕ) →+ ℕ := Multiset.countPAddMonoidHom fun p => p.1 = 0

@[simp] theorem numData_data : numData {(0, b)} = 1 := rfl

@[simp] theorem numData_cons_page {m : Multiset (ℕ × ℕ)} :
    numData ((h + 1, b) ::ₘ m) = numData m :=
  Multiset.countP_cons_of_neg _ (by simp)

theorem numData_coe (m : List (ℕ × ℕ)) : numData (m : Multiset (ℕ × ℕ)) = m.countP fun p => p.1 = 0 :=
  Multiset.coe_countP _ _

namespace Slot

/-- There are as many pointers to blocks of data as blocks are found. -/
theorem card_find (t : Slot h) :
    ((Finset.range (512 ^ h)).filter fun k => t.ptr 0 k ≠ none).card = numData t.entries := by
  induction t with
  | null => simp
  | data b => simp [entries, ptr, Finset.filter_true_of_mem]
  | @page h b node ih =>
    rw [entries_page, numData_cons_page, map_sum, Finset.card_filter, pow_succ', sum_range_mul]
    refine Finset.sum_congr rfl fun i _ => ?_
    rw [← ih i, Finset.card_filter]
    refine Finset.sum_congr rfl fun k hk => ?_
    obtain ⟨hdiv, hmod⟩ := mul_add_div_mod (Finset.mem_range.mp hk) i
    rw [ptr_page_of_le (Nat.zero_le h), hdiv, hmod]

/-- The recursive count counts them. -/
theorem countIblocks_eq (t : Slot h) : t.countIblocks = numData t.entries := by
  induction t with
  | null => cases h <;> simp [countIblocks]
  | data b => simp [countIblocks, entries]
  | page b node ih =>
    rw [entries_page, numData_cons_page, map_sum]
    exact Finset.sum_congr rfl fun i _ => ih i

end Slot

/-- A page with pointers in its first slots. -/
def pageOf (b : ℕ) (slots : List (Slot h)) : Slot (h + 1) := .page b fun i => slots.getD i .null

theorem entries_pageOf {slots : List (Slot h)} (hlen : slots.length ≤ 512) :
    (pageOf b slots).entries = (h + 1, b) ::ₘ (slots.map Slot.entries).sum := by
  have hsum : ∀ (slots : List (Slot h)) n, slots.length ≤ n →
      ∑ i ∈ Finset.range n, (slots.getD i .null).entries = (slots.map Slot.entries).sum := by
    intro slots
    induction slots with
    | nil => simp
    | cons t slots ih =>
      intro n hn
      obtain ⟨n, rfl⟩ := Nat.exists_eq_add_one.mpr (Nat.lt_of_lt_of_le (Nat.succ_pos _) hn)
      rw [Finset.sum_range_succ', List.map_cons, List.sum_cons, add_comm]
      exact congrArg _ (ih n (Nat.le_of_succ_le_succ hn))
  rw [pageOf, Slot.entries_page, hsum slots 512 hlen]

/-! ## Height -/

theorem levelsFrom_le_iff {fuel : ℕ} (hn : n ≤ fuel) : levelsFrom fuel n ≤ m ↔ n < 512 ^ m := by
  induction fuel generalizing n m with
  | zero =>
    obtain rfl : n = 0 := by omega
    exact iff_of_true (Nat.zero_le m) (Nat.pow_pos (by decide))
  | succ fuel ih =>
    rw [levelsFrom]
    split
    · subst n
      exact iff_of_true (Nat.zero_le m) (Nat.pow_pos (by decide))
    · cases m with
      | zero => simp_all
      | succ m =>
        rw [Nat.add_le_add_iff_right, ih (by omega), pow_succ, Nat.div_lt_iff_lt_mul (by decide)]

/-- The levels that there are to be. -/
theorem levels_le_iff : levels n ≤ m ↔ n < 512 ^ m := levelsFrom_le_iff le_rfl

/-! ## Files -/

variable {f f' : File}

/-- The pointer of the level `l` to the block `k`, in a tree of any height. -/
def treePtr (t : (h : ℕ) × Slot h) (l k : ℕ) : Option ℕ :=
  if 512 ^ t.1 ≤ k then none else t.2.ptr l k

def ptr (f : File) (l k : ℕ) : Option ℕ := treePtr ⟨f.height, f.root⟩ l k

theorem treePtr_of_lt {t : (h : ℕ) × Slot h} (hk : k < 512 ^ t.1) :
    treePtr t l k = t.2.ptr l k := if_neg (Nat.not_le.mpr hk)

theorem lt_of_treePtr {t : (h : ℕ) × Slot h} (hptr : treePtr t l k ≠ none) : k < 512 ^ t.1 := by
  by_contra hk
  exact hptr (if_pos (Nat.not_lt.mp hk))

/-- The blocks that are there. -/
def mapped (f : File) : Finset ℕ :=
  (Finset.range (512 ^ f.height)).filter fun k => f.root.ptr 0 k ≠ none

theorem pmfsFindDataBlock_eq (f : File) (k : ℕ) : pmfsFindDataBlock f k = f.ptr 0 k := by
  rw [pmfsFindDataBlock, ptr, treePtr, Slot.find_eq]

theorem mem_mapped : k ∈ f.mapped ↔ f.ptr 0 k ≠ none := by
  rw [mapped, Finset.mem_filter, Finset.mem_range, ptr, treePtr]
  split <;> simp_all

theorem card_mapped (f : File) : f.mapped.card = numData f.root.entries := Slot.card_find _

theorem ptr_of_lt (hk : k < 512 ^ f.height) : f.ptr l k = f.root.ptr l k := treePtr_of_lt hk

theorem lt_of_ptr (hptr : f.ptr l k ≠ none) : k < 512 ^ f.height := lt_of_treePtr hptr

theorem mem_entries {p : ℕ × ℕ} : p ∈ f.root.entries ↔ ∃ k, f.ptr p.1 k = some p.2 := by
  rw [Slot.mem_entries]
  constructor
  · rintro ⟨k, hk, hptr⟩
    exact ⟨k, by rw [ptr_of_lt hk, hptr]⟩
  · rintro ⟨k, hptr⟩
    have hk := lt_of_ptr (f := f) (by rw [hptr]; exact Option.some_ne_none _)
    exact ⟨k, hk, by rw [← ptr_of_lt hk, hptr]⟩

theorem mem_entries_of_find (hb : pmfsFindDataBlock f k = some b) : (0, b) ∈ f.root.entries :=
  mem_entries.mpr ⟨k, (pmfsFindDataBlock_eq f k).symm.trans hb⟩

/-- A tree of at most three levels of pages, in which no block has two uses. -/
structure WellFormed (f : File) : Prop where
  height_le : f.height ≤ 3
  null : f.root.isNull = true → f.height = 0
  nodup : (f.root.entries.map Prod.snd).Nodup
  nonzero : 0 ∉ f.root.entries.map Prod.snd

end Wpmfs.File
