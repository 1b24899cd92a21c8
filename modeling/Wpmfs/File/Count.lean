import Mathlib.Algebra.Order.BigOperators.Group.Finset
import Wpmfs.File.Alloc
import Wpmfs.File.Remains

/-!
# How many pages a tree has

On each level there is one pointer for each span that has a block in it. An allocation that the
allocator never refuses fills the whole range, so that the number of its pages is known.
-/

namespace Wpmfs.File

open Spans

variable {h l k n m i first last : ℕ} {zero : Bool} {s t : Heap} {f f' : File}

/-- The pointers that lead to the blocks up to `n`, in a tree of the height `h`. -/
def fullCount (h n : ℕ) : ℕ := ∑ l ∈ Finset.range (h + 1), (n / 512 ^ l + 1)

namespace Slot

theorem level_le {t : Slot h} {p : ℕ × ℕ} (hp : p ∈ t.entries) : p.1 ≤ h := by
  obtain ⟨k, -, hptr⟩ := mem_entries.mp hp
  exact le_of_ptr (ne_of_eq_of_ne hptr (Option.some_ne_none _))

/-- As many pointers of a level as there are spans with such a pointer. -/
theorem card_level (t : Slot h) (hl : l ≤ h) :
    ((Finset.range (512 ^ (h - l))).filter fun j => t.ptr l (j * 512 ^ l) ≠ none).card =
      t.entries.countP fun p => p.1 = l := by
  induction t with
  | null => simp
  | data b =>
    obtain rfl : l = 0 := Nat.le_zero.mp hl
    have hcount : (entries (data b)).countP (fun p => p.1 = 0) = 1 := rfl
    simp [hcount, ptr, Finset.filter_true_of_mem]
  | @page h b node ih =>
    rw [entries_page]
    rcases hl.lt_or_eq with hlt | rfl
    · have hle : l ≤ h := Nat.le_of_lt_succ hlt
      have hsub : h + 1 - l = h - l + 1 := by omega
      rw [Multiset.countP_cons_of_neg _ (by dsimp only; omega),
        ← Multiset.coe_countPAddMonoidHom, map_sum, Finset.card_filter, hsub, pow_succ',
        sum_range_mul]
      refine Finset.sum_congr rfl fun i _ => ?_
      rw [Multiset.coe_countPAddMonoidHom, ← ih i hle, Finset.card_filter]
      refine Finset.sum_congr rfl fun j hj => ?_
      have hj' : j * 512 ^ l < 512 ^ h := by
        have hmul := Nat.mul_lt_mul_of_pos_right (Finset.mem_range.mp hj)
          (Nat.pow_pos (by decide : 0 < 512) (n := l))
        rwa [← pow_add, Nat.sub_add_cancel hle] at hmul
      have hmul : (i * 512 ^ (h - l) + j) * 512 ^ l = i * 512 ^ h + j * 512 ^ l := by
        rw [Nat.add_mul, Nat.mul_assoc, ← pow_add, Nat.sub_add_cancel hle]
      obtain ⟨hdiv, hmod⟩ := mul_add_div_mod hj' i
      rw [ptr_page_of_le hle, hmul, hdiv, hmod]
    · have hzero : (Finset.range 512).sum
          (fun i => (node i).entries.countP fun p => p.1 = h + 1) = 0 :=
        Finset.sum_eq_zero fun i _ => Multiset.countP_eq_zero.mpr fun p hp =>
          (Nat.lt_succ_of_le (level_le hp)).ne
      rw [Multiset.countP_cons_of_pos (p := fun p : ℕ × ℕ => p.1 = h + 1) _ rfl,
        ← Multiset.coe_countPAddMonoidHom, map_sum]
      simp only [Multiset.coe_countPAddMonoidHom]
      rw [hzero]
      simp [ptr]

/-- The pointers, level by level. -/
theorem card_entries (t : Slot h) :
    t.entries.card = ∑ l ∈ Finset.range (h + 1), t.entries.countP fun p => p.1 = l := by
  have hlevels : ∀ l ∈ t.entries.map Prod.fst, l ∈ Finset.range (h + 1) := by
    intro l hl
    obtain ⟨p, hp, rfl⟩ := Multiset.mem_map.mp hl
    exact Finset.mem_range_succ_iff.mpr (level_le hp)
  rw [← Multiset.card_map Prod.fst t.entries, ← Multiset.sum_count_eq_card hlevels]
  refine Finset.sum_congr rfl fun l _ => ?_
  rw [Multiset.count_map, Multiset.countP_eq_card_filter]
  simp only [eq_comm]

/-- Above a block there are pointers on all levels. -/
theorem ptr_above {t : Slot h} (hl : l ≤ h) (hptr : t.ptr 0 k ≠ none) : t.ptr l k ≠ none := by
  induction t generalizing k with
  | null => exact absurd ptr_null hptr
  | data b =>
    obtain rfl : l = 0 := Nat.le_zero.mp hl
    exact hptr
  | @page h b node ih =>
    rcases hl.lt_or_eq with hlt | rfl
    · rw [ptr_page_of_le (Nat.zero_le h)] at hptr
      rw [ptr_page_of_le (Nat.le_of_lt_succ hlt)]
      exact ih _ (Nat.le_of_lt_succ hlt) hptr
    · simp [ptr]

end Slot

/-- A tree that ends by the block `n` has no more pointers than lead to the blocks up to `n`. -/
theorem EndsBy.card_le (hf : f.EndsBy n) : f.root.entries.card ≤ fullCount f.height n := by
  rw [Slot.card_entries]
  refine Finset.sum_le_sum fun l hl => ?_
  rw [← Slot.card_level f.root (Finset.mem_range_succ_iff.mp hl)]
  refine (Finset.card_le_card fun j hj => ?_).trans (Finset.card_range (n / 512 ^ l + 1)).le
  obtain ⟨hj, hptr⟩ := Finset.mem_filter.mp hj
  have hpos : 0 < 512 ^ l := Nat.pow_pos (by decide)
  have hlt : j * 512 ^ l < 512 ^ f.height := by
    have hmul := Nat.mul_lt_mul_of_pos_right (Finset.mem_range.mp hj) hpos
    rwa [← pow_add, Nat.sub_add_cancel (Finset.mem_range_succ_iff.mp hl)] at hmul
  have hle := hf l (j * 512 ^ l) (by rwa [ptr_of_lt hlt])
  rw [Nat.mul_div_cancel _ hpos] at hle
  exact Finset.mem_range_succ_iff.mpr hle

/-- A tree that has the blocks up to `n` has all of them. -/
theorem fullCount_le_card (hfound : ∀ k ≤ n, f.ptr 0 k ≠ none) :
    fullCount f.height n ≤ f.root.entries.card := by
  rw [Slot.card_entries]
  refine Finset.sum_le_sum fun l hl => ?_
  have hl := Finset.mem_range_succ_iff.mp hl
  rw [← Slot.card_level f.root hl]
  refine (Finset.card_range (n / 512 ^ l + 1)).ge.trans (Finset.card_le_card fun j hj => ?_)
  have hpos : 0 < 512 ^ l := Nat.pow_pos (by decide)
  have hle : j * 512 ^ l ≤ n :=
    (Nat.le_div_iff_mul_le hpos).mp (Finset.mem_range_succ_iff.mp hj)
  have hptr := hfound _ hle
  have hlt := lt_of_ptr hptr
  rw [ptr_of_lt hlt] at hptr
  refine Finset.mem_filter.mpr ⟨Finset.mem_range.mpr ?_, Slot.ptr_above hl hptr⟩
  rw [← Nat.sub_add_cancel hl, pow_add] at hlt
  exact Nat.lt_of_mul_lt_mul_right hlt

/-! ## An allocator that refuses nothing -/

def Env.Unlimited (s : Env) : Prop := ∀ r e, s.answer r ≠ .error e

namespace Env.Unlimited

theorem pmfsNewDataBlock (zero : Bool) (hs : s.Unlimited) :
    ∃ b, (s.pmfsNewDataBlock zero).1 = .ok b ∧ (s.pmfsNewDataBlock zero).2.Unlimited := by
  have hrest : Env.Unlimited { s.toEnv with data := fun n => s.data (n + 1) } := by
    rintro (n | n)
    · exact hs (.inl (n + 1))
    · exact hs (.inr n)
  rw [Heap.pmfsNewDataBlock]
  cases hb : s.data 0 with
  | error e => exact absurd hb (hs (.inl 0) e)
  | ok b => exact ⟨b, rfl, hrest⟩

theorem pmfsNewBlock (hs : s.Unlimited) :
    ∃ b, (s.pmfsNewBlock l).1 = .ok b ∧ (s.pmfsNewBlock l).2.Unlimited := by
  have hrest : Env.Unlimited { s.toEnv with node := fun n => s.node (n + 1) } := by
    rintro (n | n)
    · exact hs (.inl n)
    · exact hs (.inr (n + 1))
  rw [Heap.pmfsNewBlock]
  cases hb : s.node 0 with
  | error e => exact absurd hb (hs (.inr 0) e)
  | ok b => exact ⟨b, rfl, hrest⟩

theorem allocSlots {slot : ℕ → Slot h → Heap → Alloc (Slot h)} {node : ℕ → Slot h}
    (hslot : ∀ i c s, Env.Unlimited s.toEnv →
      (slot i c s).errval = none ∧ (slot i c s).heap.Unlimited) (hs : s.Unlimited) :
    (File.allocSlots slot n i node s).errval = none ∧
      (File.allocSlots slot n i node s).heap.Unlimited := by
  induction n generalizing i node s with
  | zero => exact ⟨rfl, hs⟩
  | succ n ih =>
    obtain ⟨herr, hs⟩ := hslot i (node i) s hs
    rw [File.allocSlots, herr]
    exact ih hs

theorem allocData (slot : Slot 0) (hs : s.Unlimited) :
    (File.allocData zero slot s).errval = none ∧ (File.allocData zero slot s).heap.Unlimited := by
  obtain ⟨b, hb, hrest⟩ := hs.pmfsNewDataBlock zero
  rw [File.allocData]
  split
  · revert hb hrest
    cases s.pmfsNewDataBlock zero with
    | mk r t =>
      rintro rfl hrest
      exact ⟨rfl, hrest⟩
  · exact ⟨rfl, hs⟩

theorem recursiveAllocBlocks (zero : Bool) (node : ℕ → Slot h) (first last : ℕ)
    (hs : s.Unlimited) :
    (File.recursiveAllocBlocks zero h node first last s).errval = none ∧
      (File.recursiveAllocBlocks zero h node first last s).heap.Unlimited := by
  induction h generalizing first last s with
  | zero => exact allocSlots (fun _ c s hs => allocData c hs) hs
  | succ h ih =>
    refine allocSlots (fun i c s hs => ?_) hs
    cases c with
    | page b node => exact ih node _ _ hs
    | null =>
      obtain ⟨b, hb, hrest⟩ := hs.pmfsNewBlock (l := h + 1)
      revert hb hrest
      cases s.pmfsNewBlock (h + 1) with
      | mk r t =>
        rintro rfl hrest
        exact ih _ _ _ hrest

theorem pmfsIncreaseBtreeHeight (root : Slot h) (hs : s.Unlimited) :
    (File.pmfsIncreaseBtreeHeight n h root s).1 = none ∧
      (File.pmfsIncreaseBtreeHeight n h root s).2.2.Unlimited := by
  induction n generalizing h s with
  | zero => exact ⟨rfl, hs⟩
  | succ n ih =>
    obtain ⟨b, hb, hrest⟩ := hs.pmfsNewBlock (l := h + 1)
    rw [File.pmfsIncreaseBtreeHeight]
    revert hb hrest
    cases s.pmfsNewBlock (h + 1) with
    | mk r t =>
      rintro rfl hrest
      exact ih _ hrest

end Env.Unlimited

/-- An allocation in a file that is not too big then succeeds. -/
theorem pmfsAllocBlocks_unlimited {num : ℕ} {s : Env} (zero : Bool) (hs : s.Unlimited)
    (hnull : f.root.isNull = true → f.height = 0) (hnum : 0 < num)
    (hheight : heightFor f.height (k + num - 1) ≤ 3) :
    ∃ f' s', pmfsAllocBlocks f k num zero s = some (none, f', s') := by
  have hheap : Env.Unlimited (f.heap s).toEnv := hs
  have hcases := pmfsAllocBlocks_cases k zero s hnull hnum
  rw [pmfsAllocBlocks, if_neg fun h => absurd h.2 (Nat.not_lt.mpr hheight)] at hcases ⊢
  dsimp only at hcases ⊢
  split at hcases
  · rename_i hzero
    rw [if_pos hzero]
    obtain ⟨b, hb, -⟩ := hheap.pmfsNewDataBlock zero
    rw [allocRoot]
    split
    · revert hb
      cases (f.heap s).pmfsNewDataBlock zero with
      | mk r t =>
        rintro rfl
        exact ⟨_, _, rfl⟩
    · exact ⟨_, _, rfl⟩
  · rename_i hpos
    rw [if_neg hpos]
    obtain ⟨herr, hrest⟩ := hheap.pmfsIncreaseBtreeHeight f.root
      (n := heightFor f.height (k + num - 1) - f.height)
    revert hcases herr hrest
    cases pmfsIncreaseBtreeHeight (heightFor f.height (k + num - 1) - f.height) f.height f.root
      (f.heap s) with
    | mk err rest =>
      obtain ⟨⟨m, t⟩, s'⟩ := rest
      intro hcases herr hrest
      obtain rfl : err = none := herr
      cases t with
      | null => simp [allocTree] at hcases
      | data b => simp [allocTree] at hcases
      | page b node =>
        have hok := (hrest.recursiveAllocBlocks zero node k (k + num - 1)).1
        exact ⟨_, _, congrArg some (Prod.ext hok rfl)⟩

end Wpmfs.File
