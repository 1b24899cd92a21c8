import Mathlib.Algebra.Order.Ring.Int
import Mathlib.Algebra.Order.Ring.Nat
import Mathlib.Logic.Relation
import Mathlib.Order.Interval.Finset.Nat
import Wpmfs.File.Tree

/-!
# What an allocation adds to a tree

An allocation adds pointers that lead to blocks of its range, and no others; where it succeeds there
are blocks in all of the range. What it adds is what it has got from the allocator.
-/

namespace Wpmfs.File

open Spans

variable {α : Type} {h n m k l i j b first last : ℕ} {zero : Bool} {s s' t : Heap}

/-! ## Requests -/

namespace Heap

/-- One request to the allocator, or the flag. -/
inductive Step (zero : Bool) : Heap → Heap → Prop
  | data (s : Heap) : Step zero s (s.pmfsNewDataBlock zero).2
  | node (s : Heap) (l : ℕ) : Step zero s (s.pmfsNewBlock (l + 1)).2
  | flag (s : Heap) : Step zero s { s with eofblocks := true }

/-- Any number of them. -/
def Grows (zero : Bool) : Heap → Heap → Prop := Relation.ReflTransGen (Step zero)

theorem Grows.refl : Grows zero s s := Relation.ReflTransGen.refl

theorem Grows.trans (hs : Grows zero s s') (ht : Grows zero s' t) : Grows zero s t :=
  Relation.ReflTransGen.trans hs ht

theorem Grows.tail (hs : Grows zero s s') (ht : Step zero s' t) : Grows zero s t :=
  Relation.ReflTransGen.tail hs ht

theorem Grows.single (hs : Step zero s s') : Grows zero s s' := Relation.ReflTransGen.single hs

end Heap

/-- There is a page for every request for a page of pointers. -/
def Env.HasNodes (s : Env) : Prop := ∀ n e, s.node n ≠ .error e

/-- What the allocator answers, to the requests for blocks and to those for pages. -/
def Env.answer (s : Env) : ℕ ⊕ ℕ → Except Error ℕ := Sum.elim s.data s.node

/-- The allocator gives no block twice, and none that is in use. -/
structure Env.Gives (s : Env) (used : Multiset ℕ) : Prop where
  inj : ∀ r r' b, s.answer r = .ok b → s.answer r' = .ok b → r = r'
  fresh : ∀ r b, s.answer r = .ok b → b ≠ 0 ∧ b ∉ used

/-- The blocks in use have one use each. -/
def Apart (used : Multiset ℕ) : Prop := used.Nodup ∧ 0 ∉ used

section Answers

variable {a d : Env} {used : Multiset ℕ} {σ : ℕ ⊕ ℕ → ℕ ⊕ ℕ} {r : ℕ ⊕ ℕ}

theorem Env.Gives.drop (hd : d.Gives used) (hσ : Function.Injective σ)
    (ha : ∀ r, a.answer r = d.answer (σ r)) : a.Gives used := by
  refine ⟨fun r r' c hr hr' => ?_, fun r c hr => hd.fresh _ c ((ha r).symm.trans hr)⟩
  rw [ha] at hr hr'
  exact hσ (hd.inj _ _ c hr hr')

/-- What is given is in use from then on. -/
theorem Env.Gives.take (hd : d.Gives used) (hσ : Function.Injective σ)
    (ha : ∀ r, a.answer r = d.answer (σ r)) (hr : ∀ q, σ q ≠ r) (hb : d.answer r = .ok b) :
    a.Gives (b ::ₘ used) := by
  have hdrop := hd.drop hσ ha
  refine ⟨hdrop.inj, fun q c hq => ⟨(hdrop.fresh q c hq).1, fun hc => ?_⟩⟩
  rcases Multiset.mem_cons.mp hc with rfl | hc
  · exact hr q (hd.inj _ _ c ((ha q).symm.trans hq) hb)
  · exact (hdrop.fresh q c hq).2 hc

theorem Env.Gives.apart (hd : d.Gives used) (hused : Apart used) (hb : d.answer r = .ok b) :
    Apart (b ::ₘ used) := by
  obtain ⟨hne, hfresh⟩ := hd.fresh _ _ hb
  refine ⟨Multiset.nodup_cons.mpr ⟨hfresh, hused.1⟩, fun h0 => ?_⟩
  rcases Multiset.mem_cons.mp h0 with h0 | h0
  · exact hne h0.symm
  · exact hused.2 h0

end Answers

namespace Heap

theorem Step.hasNodes (hstep : Step zero s s') (hs : s.HasNodes) : s'.HasNodes := by
  cases hstep with
  | data =>
    rw [pmfsNewDataBlock]
    split
    · exact hs
    · exact hs
  | node =>
    rw [pmfsNewBlock]
    split
    · exact fun n => hs (n + 1)
    · exact fun n => hs (n + 1)
  | flag => exact hs

theorem Grows.hasNodes (hgrows : Grows zero s t) (hs : s.HasNodes) : t.HasNodes := by
  induction hgrows with
  | refl => exact hs
  | tail _ hstep ih => exact hstep.hasNodes ih

theorem Step.eofblocks (hstep : Step zero s s') (hs : s.eofblocks = true) :
    s'.eofblocks = true := by
  cases hstep with
  | data =>
    rw [pmfsNewDataBlock]
    split
    · exact hs
    · exact hs
  | node =>
    rw [pmfsNewBlock]
    split
    · exact hs
    · exact hs
  | flag => rfl

theorem Grows.eofblocks (hgrows : Grows zero s t) (hs : s.eofblocks = true) :
    t.eofblocks = true := by
  induction hgrows with
  | refl => exact hs
  | tail _ hstep ih => exact hstep.eofblocks ih

/-- What is given for data is counted. -/
theorem Step.count (hstep : Step zero s s') :
    s'.iBlocks + numData s.got = s.iBlocks + numData s'.got := by
  cases hstep with
  | data =>
    rw [pmfsNewDataBlock]
    split
    · rfl
    · rw [← Multiset.cons_coe, ← Multiset.singleton_add, map_add, numData_data]
      dsimp only
      omega
  | node =>
    rw [pmfsNewBlock]
    split
    · rfl
    · rw [← Multiset.cons_coe, numData_cons_page]
  | flag => rfl

theorem Grows.count (hgrows : Grows zero s t) :
    t.iBlocks + numData s.got = s.iBlocks + numData t.got := by
  induction hgrows with
  | refl => rfl
  | tail _ hstep ih =>
    have := hstep.count
    omega

/-- The blocks that are given are recorded, and zeroed if they are to be. Those in use are not
written. -/
structure Gave (zero : Bool) (used : Multiset ℕ) (s t : Heap) (new : List (ℕ × ℕ)) : Prop where
  got : t.got = new ++ s.got
  gives : t.Gives ((new.map Prod.snd : List ℕ) + used)
  apart : Apart ((new.map Prod.snd : List ℕ) + used)
  mem : ∀ b ∈ used, t.mem b = s.mem b
  zeroed : zero = true → ∀ b, (0, b) ∈ new → ∀ i, t.mem b i = 0

theorem Gave.refl {used : Multiset ℕ} (hs : t.Gives used) (hused : Apart used)
    (hgot : t.got = s.got) (hmem : t.mem = s.mem) : Gave zero used s t [] :=
  ⟨hgot, by simpa using hs, by simpa using hused, fun b _ => congrFun hmem b, by simp⟩

theorem Gave.trans {used : Multiset ℕ} {new new' : List (ℕ × ℕ)} (hs : Gave zero used s s' new)
    (ht : Gave zero ((new.map Prod.snd : List ℕ) + used) s' t new') :
    Gave zero used s t (new' ++ new) := by
  have happ : (((new' ++ new).map Prod.snd : List ℕ) : Multiset ℕ) + used =
      (new'.map Prod.snd : List ℕ) + ((new.map Prod.snd : List ℕ) + used) := by
    rw [List.map_append, ← Multiset.coe_add, add_assoc]
  refine ⟨by rw [ht.got, hs.got, List.append_assoc], happ ▸ ht.gives, happ ▸ ht.apart,
    fun b hb => ?_, fun hzero b hb i => ?_⟩
  · rw [ht.mem b (Multiset.mem_add.mpr (.inr hb)), hs.mem b hb]
  · rcases List.mem_append.mp hb with hb | hb
    · exact ht.zeroed hzero b hb i
    · have hin : b ∈ ((new.map Prod.snd : List ℕ) : Multiset ℕ) + used :=
        Multiset.mem_add.mpr (.inl (Multiset.mem_coe.mpr (List.mem_map_of_mem hb)))
      rw [ht.mem b hin, hs.zeroed hzero b hb i]

theorem Step.gives {used : Multiset ℕ} (hstep : Step zero s s') (hs : s.Gives used)
    (hused : Apart used) : ∃ new, Gave zero used s s' new := by
  have hdata : Function.Injective (Sum.map (· + 1) id : ℕ ⊕ ℕ → ℕ ⊕ ℕ) :=
    Sum.map_injective.mpr ⟨add_left_injective 1, Function.injective_id⟩
  have hnode : Function.Injective (Sum.map id (· + 1) : ℕ ⊕ ℕ → ℕ ⊕ ℕ) :=
    Sum.map_injective.mpr ⟨Function.injective_id, add_left_injective 1⟩
  cases hstep with
  | data =>
    rw [pmfsNewDataBlock]
    split
    · exact ⟨[], .refl (hs.drop hdata (by rintro (r | r) <;> rfl)) hused rfl rfl⟩
    · rename_i b hb
      refine ⟨[(0, b)], rfl, ?_, hs.apart (r := .inl 0) hused hb, fun c hc => ?_, ?_⟩
      · exact hs.take hdata (by rintro (r | r) <;> rfl) (r := .inl 0)
          (by rintro (r | r) <;> simp) hb
      · have hne : c ≠ b := by
          rintro rfl
          exact (hs.fresh (.inl 0) c hb).2 hc
        dsimp only
        split
        · rw [Function.update_of_ne hne]
        · rfl
      · rintro rfl c hc i
        obtain ⟨-, rfl⟩ := Prod.mk.inj (List.mem_singleton.mp hc)
        dsimp only
        rw [if_pos rfl, Function.update_self]
  | node l =>
    rw [pmfsNewBlock]
    split
    · exact ⟨[], .refl (hs.drop hnode (by rintro (r | r) <;> rfl)) hused rfl rfl⟩
    · rename_i b hb
      refine ⟨[(l + 1, b)], rfl, ?_, hs.apart (r := .inr 0) hused hb, fun _ _ => rfl, by simp⟩
      exact hs.take hnode (by rintro (r | r) <;> rfl) (r := .inr 0)
        (by rintro (r | r) <;> simp) hb
  | flag => exact ⟨[], .refl (show Env.Gives { s with eofblocks := true }.toEnv used from hs) hused
      rfl rfl⟩

theorem Grows.gives {used : Multiset ℕ} (hgrows : Grows zero s t) (hs : s.Gives used)
    (hused : Apart used) : ∃ new, Gave zero used s t new := by
  induction hgrows with
  | refl => exact ⟨[], .refl hs hused rfl rfl⟩
  | tail _ hstep ih =>
    obtain ⟨new, hnew⟩ := ih
    obtain ⟨new', hnew'⟩ := hstep.gives hnew.gives hnew.apart
    exact ⟨new' ++ new, hnew.trans hnew'⟩

end Heap

/-! ## One pointer -/

/-- Between the first and the last block. -/
def Within (first last k : ℕ) : Prop := first ≤ k ∧ k ≤ last

/-- An allocation has come as far as the block `m`: there are all blocks of the range before, and
nothing is new from there on. -/
structure StoppedAt (old new : ℕ → Option ℕ) (first last m : ℕ) : Prop where
  le : m ≤ last
  found : ∀ k, first ≤ k → k < m → new k ≠ none
  lt : ∀ k, old k = none → new k ≠ none → k < m

/-- What an allocation behind a pointer does to it. `range` is where it is to find blocks. -/
structure Filled (slot : Slot h) (range : ℕ → Prop) (first last : ℕ) (zero : Bool) (s : Heap)
    (r : Alloc (Slot h)) : Prop where
  grows : s.Grows zero r.heap
  entries : r.val.entries + s.got = slot.entries + r.heap.got
  kept : ∀ l k b, slot.ptr l k = some b → r.val.ptr l k = some b
  meets : ∀ l k, k < 512 ^ h → slot.ptr l k = none → r.val.ptr l k ≠ none →
    Meets 512 first last l k
  found : r.errval = none → ∀ k, range k → r.val.ptr 0 k ≠ none
  flagged : r.errval ≠ none → s.HasNodes → r.heap.eofblocks = true
  stopped : r.errval ≠ none → ∃ m, StoppedAt (slot.ptr 0) (r.val.ptr 0) first last m
  fed : r.heap.eofblocks = true ∨ ∀ k < 512 ^ h, slot.ptr 1 k = none → r.val.ptr 1 k ≠ none →
    ∃ j, Within first last j ∧ j / 512 ^ 1 = k / 512 ^ 1 ∧ r.val.ptr 0 j ≠ none

theorem StoppedAt.start {old : ℕ → Option ℕ} (hle : first ≤ last) :
    StoppedAt old old first last first :=
  ⟨hle, fun _ hk hk' => absurd hk (Nat.not_le.mpr hk'), fun _ h h' => absurd h h'⟩

/-- The loop rule. `I` speaks of the next slot and of what the loop has got so far. -/
theorem allocSlots_rule (slot : ℕ → Slot h → Heap → Alloc (Slot h)) (node : ℕ → Slot h)
    {I : ℕ → Alloc (ℕ → Slot h) → Prop}
    (hstep : ∀ j node s, i ≤ j → j < i + n → I j ⟨node, none, s⟩ →
      I (j + 1) ⟨Function.update node j (slot j (node j) s).val, (slot j (node j) s).errval,
        (slot j (node j) s).heap⟩)
    (hinit : I i ⟨node, none, s⟩) :
    ∃ j, I j (allocSlots slot n i node s) ∧
      ((allocSlots slot n i node s).errval = none → j = i + n) := by
  induction n generalizing i node s with
  | zero => exact ⟨i, hinit, fun _ => rfl⟩
  | succ n ih =>
    have hnext := hstep i node s le_rfl (by omega) hinit
    rw [allocSlots]
    cases herr : (slot i (node i) s).errval with
    | none =>
      rw [herr] at hnext
      obtain ⟨j, hI, hj⟩ := ih _ (fun j node s hij hjn => hstep j node s (by omega) (by omega)) hnext
      exact ⟨j, hI, fun h => (hj h).trans (by omega)⟩
    | some e =>
      rw [herr] at hnext
      exact ⟨i + 1, hnext, nofun⟩

theorem allocData_filled (slot : Slot 0) (s : Heap) :
    Filled slot (Within 0 0) 0 0 zero s (allocData zero slot s) := by
  rw [allocData]
  cases slot with
  | data b =>
    exact ⟨.refl, rfl, fun _ _ _ h => h, fun l k _ h h' => absurd h h',
      fun _ _ _ => Option.some_ne_none b, fun h => absurd rfl h, fun h => absurd rfl h,
      .inr fun k _ h h' => absurd h h'⟩
  | null =>
    have hdata : Heap.Step zero s (s.pmfsNewDataBlock zero).2 := .data s
    revert hdata
    rw [Heap.pmfsNewDataBlock]
    cases s.data 0 with
    | ok b =>
      intro hdata
      refine ⟨.single hdata, ?_, fun l k b h => ?_, fun l k hk _ hptr => ?_,
        fun _ _ _ => Option.some_ne_none b, fun h => absurd rfl h, fun h => absurd rfl h,
        .inr fun k _ _ hptr => absurd rfl hptr⟩
      · simp [Slot.isNull, Slot.entries]
      · simp at h
      · obtain rfl : k = 0 := by simpa using hk
        exact ⟨le_rfl, le_rfl⟩
    | error e =>
      intro hdata
      exact ⟨.tail (.single hdata) (.flag _), rfl, fun _ _ _ h => h,
        fun l k _ h h' => absurd h h', fun h => absurd h (Option.some_ne_none e), fun _ _ => rfl,
        fun _ => ⟨0, .start (Nat.zero_le _)⟩, .inl rfl⟩

/-- The range, as far as it is behind the slots below `j`. -/
def Below (h first last j k : ℕ) : Prop := Within first last k ∧ k / 512 ^ h < j

theorem Within.below (hk : Within first last k) :
    Within (firstBelow 512 h first (k / 512 ^ h)) (lastBelow 512 h last (k / 512 ^ h))
      (k % 512 ^ h) := by
  have hmeets : Meets 512 first last 0 k := meets_zero.mpr hk
  exact meets_zero.mp ((meets_below (by decide) (Nat.zero_le h)
    (hmeets.above (Nat.zero_le h))).mp hmeets)

/-- The next slot of a page. -/
theorem Filled.step {slot : Slot (h + 1)} {node : ℕ → Slot h} {r : Alloc (Slot h)}
    (ht : Filled slot (Below h first last j) first last zero s ⟨.page b node, none, s'⟩)
    (hr : Filled (node j) (Within (firstBelow 512 h first j) (lastBelow 512 h last j))
      (firstBelow 512 h first j) (lastBelow 512 h last j) zero s' r)
    (hj : j < 512) (hfirst : first / 512 ^ h ≤ j) (hlast : j ≤ last / 512 ^ h)
    (hrest : ∀ k, j ≤ k / 512 ^ h → (Slot.page b node).ptr 0 k = slot.ptr 0 k) :
    Filled slot (Below h first last (j + 1)) first last zero s
      ⟨.page b (Function.update node j r.val), r.errval, r.heap⟩ where
  grows := ht.grows.trans hr.grows
  entries := by
    have hupdate := Slot.entries_update b node (t := r.val) hj
    have hpage := ht.entries
    have hslot := hr.entries
    ext p
    have hupdate := congrArg (Multiset.count p) hupdate
    have hpage := congrArg (Multiset.count p) hpage
    have hslot := congrArg (Multiset.count p) hslot
    simp only [Multiset.count_add] at *
    omega
  kept l k c hptr := by
    have hpage := ht.kept l k c hptr
    by_cases hk : k / 512 ^ h = j
    · subst hk
      rw [Slot.ptr_page] at hpage ⊢
      split
      · rwa [if_pos ‹_›] at hpage
      · rw [if_neg ‹_›] at hpage
        rw [Function.update_self]
        exact hr.kept _ _ _ hpage
    · rwa [Slot.ptr_update_of_ne hk]
  meets l k hk hnone hptr := by
    by_cases hold : (Slot.page b node).ptr l k = none
    · have hl : l ≤ h := by
        by_contra hl
        have := Slot.le_of_ptr hptr
        rw [Slot.ptr_page, if_pos (by omega)] at hold
        exact Option.some_ne_none _ hold
      by_cases hkj : k / 512 ^ h = j
      · subst hkj
        rw [Slot.ptr_page_of_le hl] at hold
        rw [Slot.ptr_update_of_eq rfl hl] at hptr
        exact (meets_below (by decide) hl ⟨hfirst, hlast⟩).mpr
          (hr.meets l _ (Nat.mod_lt _ (Nat.pow_pos (by decide))) hold hptr)
      · rw [Slot.ptr_update_of_ne hkj] at hptr
        exact absurd hold hptr
    · exact ht.meets l k hk hnone hold
  found herr k hk := by
    by_cases hkj : k / 512 ^ h = j
    · rw [Slot.ptr_update_of_eq hkj (Nat.zero_le h)]
      subst hkj
      exact hr.found herr _ hk.1.below
    · rw [Slot.ptr_update_of_ne hkj]
      exact ht.found rfl k ⟨hk.1, by have := hk.2; omega⟩
  flagged herr hs := hr.flagged herr (ht.grows.hasNodes hs)
  stopped herr := by
    have hpos : 0 < 512 ^ h := Nat.pow_pos (by decide)
    obtain ⟨m, hm⟩ := hr.stopped herr
    have hend : j * 512 ^ h + lastBelow 512 h last j ≤ last := lastBelow_le (by decide) hlast
    have hmlt := hm.le
    refine ⟨j * 512 ^ h + m, by omega, fun k hk hkm => ?_, fun k hnone hptr => ?_⟩
    · by_cases hkj : k / 512 ^ h = j
      · subst hkj
        rw [Slot.ptr_update_of_eq rfl (Nat.zero_le h)]
        have hdigits := Nat.div_add_mod' k (512 ^ h)
        refine hm.found _ ?_ (by omega)
        exact (Within.below ⟨hk, show k ≤ last by omega⟩).1
      · have hlt : k / 512 ^ h < j + 1 := by
          refine Nat.div_lt_of_lt_mul ?_
          have hbelow := lastBelow_lt (by decide : 0 < 512) h last j
          rw [Nat.mul_add, Nat.mul_one, Nat.mul_comm _ j]
          omega
        rw [Slot.ptr_update_of_ne hkj]
        exact ht.found rfl k ⟨⟨hk, by omega⟩, by omega⟩
    · by_cases hkj : k / 512 ^ h = j
      · subst hkj
        rw [Slot.ptr_update_of_eq rfl (Nat.zero_le h)] at hptr
        rw [← hrest k le_rfl, Slot.ptr_page_of_le (Nat.zero_le h)] at hnone
        have := hm.lt _ hnone hptr
        have hdigits := Nat.div_add_mod' k (512 ^ h)
        omega
      · rw [Slot.ptr_update_of_ne hkj] at hptr
        have hlt : k / 512 ^ h < j := by
          by_contra hge
          exact hptr ((hrest k (Nat.not_lt.mp hge)).trans hnone)
        have hmul := Nat.lt_mul_of_div_lt hlt hpos
        omega
  fed := by
    rcases hr.fed with hflag | hfed
    · exact .inl hflag
    rcases ht.fed with hflag | hfed'
    · exact .inl (hr.grows.eofblocks hflag)
    refine .inr fun k hk hnone hptr => ?_
    have hpos : 0 < 512 ^ h := Nat.pow_pos (by decide)
    by_cases hold : (Slot.page b node).ptr 1 k = none
    · have hl : 1 ≤ h := by
        by_contra hl
        have := Slot.le_of_ptr hptr
        rw [Slot.ptr_page, if_pos (by omega)] at hold
        exact Option.some_ne_none _ hold
      by_cases hkj : k / 512 ^ h = j
      · subst hkj
        rw [Slot.ptr_page_of_le hl] at hold
        rw [Slot.ptr_update_of_eq rfl hl] at hptr
        obtain ⟨i, hi, hsame, hfound⟩ := hfed _ (Nat.mod_lt _ hpos) hold hptr
        have hlt : i < 512 ^ h := hi.2.trans_lt (lastBelow_lt (by decide) h last _)
        obtain ⟨hdiv, hmod⟩ := Slot.mul_add_div_mod hlt (k / 512 ^ h)
        refine ⟨k / 512 ^ h * 512 ^ h + i, ?_, ?_, ?_⟩
        · rw [← hdiv] at hfirst hlast
          refine meets_zero.mp ((meets_below (by decide) (Nat.zero_le h) ⟨hfirst, hlast⟩).mpr ?_)
          rw [hdiv, hmod]
          exact meets_zero.mpr hi
        · rw [div_split (by decide) hl, div_split (by decide) hl k, hdiv, hmod, hsame]
        · rwa [Slot.ptr_update_of_eq hdiv (Nat.zero_le h), hmod]
      · rw [Slot.ptr_update_of_ne hkj] at hptr
        exact absurd hold hptr
    · obtain ⟨i, hi, hsame, hfound⟩ := hfed' k hk hnone hold
      refine ⟨i, hi, hsame, fun hnew => ?_⟩
      by_cases hij : i / 512 ^ h = j
      · subst hij
        rw [Slot.ptr_page_of_le (Nat.zero_le h)] at hfound
        obtain ⟨c, hc⟩ := Option.ne_none_iff_exists'.mp hfound
        rw [Slot.ptr_update_of_eq rfl (Nat.zero_le h), hr.kept 0 _ c hc] at hnew
        cases hnew
      · rw [Slot.ptr_update_of_ne hij] at hnew
        exact hfound hnew

/-- A page is filled as it should be if what is behind its slots is. -/
theorem allocSlots_filled (slot : ℕ → Slot h → Heap → Alloc (Slot h)) (b : ℕ)
    (node : ℕ → Slot h) (s : Heap) (hle : first ≤ last) (hlast : last < 512 ^ (h + 1))
    (hslot : ∀ i c s, Filled c (Within (firstBelow 512 h first i) (lastBelow 512 h last i))
      (firstBelow 512 h first i) (lastBelow 512 h last i) zero s (slot i c s)) :
    let r := allocSlots slot (last / 512 ^ h + 1 - first / 512 ^ h) (first / 512 ^ h) node s
    Filled (.page b node) (Within first last) first last zero s
      ⟨.page b r.val, r.errval, r.heap⟩ := by
  have hindex : first / 512 ^ h ≤ last / 512 ^ h := Nat.div_le_div_right hle
  have hlt : last / 512 ^ h < 512 := Nat.div_lt_of_lt_mul (by rwa [← pow_succ])
  obtain ⟨j, hI, hj⟩ := allocSlots_rule slot node (s := s)
    (n := last / 512 ^ h + 1 - first / 512 ^ h) (i := first / 512 ^ h)
    (I := fun j r => (∀ i, j ≤ i → r.val i = node i) ∧ Filled (.page b node) (Below h first last j)
      first last zero s ⟨.page b r.val, r.errval, r.heap⟩)
    (fun j t s' hij hjn hI => ⟨fun i hi => (Function.update_of_ne (by omega) _ _).trans
        (hI.1 i (by omega)),
      hI.2.step (hslot j (t j) s') (by omega) hij (by omega) fun k hk => by
        rw [Slot.ptr_page_of_le (Nat.zero_le h), Slot.ptr_page_of_le (Nat.zero_le h), hI.1 _ hk]⟩)
    ⟨fun _ _ => rfl, .refl, rfl, fun _ _ _ h => h, fun l k _ h h' => absurd h h',
      fun _ k hk => absurd hk.2 (Nat.not_lt.mpr (Nat.div_le_div_right hk.1.1)), nofun, nofun,
      .inr fun k _ h h' => absurd h h'⟩
  refine ⟨hI.2.grows, hI.2.entries, hI.2.kept, hI.2.meets, fun herr k hk => ?_, hI.2.flagged,
    hI.2.stopped, hI.2.fed⟩
  have hkl : k / 512 ^ h ≤ last / 512 ^ h := Nat.div_le_div_right hk.2
  have := hj herr
  exact hI.2.found herr k ⟨hk, by omega⟩

/-- A page that is new is one more pointer. -/
theorem Filled.newPage {r : Alloc (Slot (h + 1))} (hle : first ≤ last)
    (hlast : last < 512 ^ (h + 1)) (hs : s.pmfsNewBlock (h + 1) = (.ok b, s'))
    (hflag : h = 0 → r.errval ≠ none → r.heap.eofblocks = true)
    (hr : Filled (.page b fun _ => .null) (Within first last) first last zero s' r) :
    Filled .null (Within first last) first last zero s r := by
  have hstep : Heap.Step zero s (s.pmfsNewBlock (h + 1)).2 := .node s h
  rw [hs] at hstep
  have hgot : s'.got = (h + 1, b) :: s.got := by
    rw [Heap.pmfsNewBlock] at hs
    split at hs
    · simp at hs
    · obtain ⟨hb, rfl⟩ := Prod.mk.inj hs
      rw [Except.ok.inj hb]
  refine ⟨(Heap.Grows.single hstep).trans hr.grows, ?_, fun l k c hptr => ?_,
    fun l k hk _ hptr => ?_, hr.found, fun herr hnodes => hr.flagged herr (hstep.hasNodes hnodes),
    fun herr => ?_, ?_⟩
  · have hentries := hr.entries
    rw [hgot, ← Multiset.cons_coe, Multiset.add_cons, Slot.entries_page, Multiset.cons_add,
      Multiset.cons_inj_right] at hentries
    simpa using hentries
  · simp at hptr
  · by_cases hold : (Slot.page b fun _ => (.null : Slot h)).ptr l k = none
    · exact hr.meets l k hk hold hptr
    · have hl : l = h + 1 := by
        by_contra hl
        rw [Slot.ptr_page, if_neg hl] at hold
        exact hold Slot.ptr_null
      subst hl
      rw [Meets, Nat.div_eq_of_lt (hle.trans_lt hlast), Nat.div_eq_of_lt hk]
      exact ⟨le_rfl, Nat.zero_le _⟩
  · obtain ⟨m, hm⟩ := hr.stopped herr
    refine ⟨m, hm.le, hm.found, fun k _ hptr => hm.lt k ?_ hptr⟩
    rw [Slot.ptr_page_of_le (Nat.zero_le h), Slot.ptr_null]
  · cases h with
    | zero =>
      by_cases herr : r.errval = none
      · refine .inr fun k hk _ _ => ⟨first, ⟨le_rfl, hle⟩, ?_, hr.found herr _ ⟨le_rfl, hle⟩⟩
        rw [Nat.div_eq_of_lt (hle.trans_lt hlast), Nat.div_eq_of_lt hk]
      · exact .inl (hflag rfl herr)
    | succ h =>
      refine hr.fed.imp_right fun hfed k hk _ hptr => hfed k hk ?_ hptr
      rw [Slot.ptr_page_of_le (Nat.le_add_left 1 h), Slot.ptr_null]

/-- Without a page there is nothing behind the pointer. -/
theorem Filled.noPage {e : Error} (hle : first ≤ last) (hs : s.pmfsNewBlock (h + 1) = (.error e, s')) :
    Filled (.null : Slot (h + 1)) (Within first last) first last zero s ⟨.null, some e, s'⟩ := by
  have hstep : Heap.Step zero s (s.pmfsNewBlock (h + 1)).2 := .node s h
  rw [hs] at hstep
  rw [Heap.pmfsNewBlock] at hs
  split at hs
  · rename_i hnode
    obtain ⟨-, rfl⟩ := Prod.mk.inj hs
    exact ⟨.single hstep, rfl, fun _ _ _ h => h, fun l k _ h h' => absurd h h', nofun,
      fun _ hnodes => absurd hnode (hnodes 0 _), fun _ => ⟨first, .start hle⟩,
      .inr fun k _ h h' => absurd h h'⟩
  · simp at hs

/-- In a page of the last level, only blocks of data are refused. -/
theorem recursiveAllocBlocks_flagged (node : ℕ → Slot 0) (s : Heap)
    (herr : (recursiveAllocBlocks zero 0 node first last s).errval ≠ none) :
    (recursiveAllocBlocks zero 0 node first last s).heap.eofblocks = true := by
  obtain ⟨j, hI, -⟩ := allocSlots_rule (fun _ => allocData zero) node (s := s)
    (n := last + 1 - first) (i := first)
    (I := fun _ r => r.errval ≠ none → r.heap.eofblocks = true)
    (fun j t s' _ _ _ => by
      rw [allocData]
      split
      · cases s'.pmfsNewDataBlock zero with
        | mk answer s'' =>
          cases answer with
          | ok b => exact fun h => absurd rfl h
          | error e => exact fun _ => rfl
      · exact fun h => absurd rfl h)
    (fun h => absurd rfl h)
  exact hI herr

/-- A range behind a page is filled. -/
theorem recursiveAllocBlocks_filled (zero : Bool) (b : ℕ) (node : ℕ → Slot h) (s : Heap) (hle : first ≤ last)
    (hlast : last < 512 ^ (h + 1)) :
    let r := recursiveAllocBlocks zero h node first last s
    Filled (.page b node) (Within first last) first last zero s
      ⟨.page b r.val, r.errval, r.heap⟩ := by
  induction h generalizing b s first last with
  | zero =>
    have hfilled := allocSlots_filled (fun _ => allocData zero) b node s hle hlast fun i c s => by
      simpa [firstBelow, lastBelow, Nat.mod_one] using allocData_filled c s
    simpa [recursiveAllocBlocks] using hfilled
  | succ h ih =>
    refine allocSlots_filled _ b node s hle hlast fun i c s => ?_
    have hle' := firstBelow_le (h := h + 1) (by decide : 0 < 512) hle i
    have hlast' := lastBelow_lt (by decide : 0 < 512) (h + 1) last i
    cases c with
    | page c node => exact ih c node s hle' hlast'
    | null =>
      cases hnew : s.pmfsNewBlock (h + 1) with
      | mk answer s' =>
        cases answer with
        | ok c =>
          refine (ih c (fun _ => .null) s' hle' hlast').newPage hle' hlast' hnew fun hh herr => ?_
          subst hh
          exact recursiveAllocBlocks_flagged _ _ herr
        | error e => exact .noPage hle' hnew

/-! ## Height -/

theorem heightFor_le_iff : heightFor h last ≤ m ↔ h ≤ m ∧ last < 512 ^ m := by
  have hpos : 0 < 512 ^ h := Nat.pow_pos (by decide)
  rw [heightFor]
  split
  · constructor
    · intro hm
      obtain ⟨d, rfl⟩ := Nat.exists_eq_add_of_le (show h ≤ m by omega)
      refine ⟨by omega, ?_⟩
      have hd : levels (last / 512 ^ h) ≤ d := by omega
      rw [levels_le_iff, Nat.div_lt_iff_lt_mul hpos] at hd
      rwa [pow_add, Nat.mul_comm]
    · rintro ⟨hm, hlast⟩
      obtain ⟨d, rfl⟩ := Nat.exists_eq_add_of_le hm
      rw [pow_add, Nat.mul_comm, ← Nat.div_lt_iff_lt_mul hpos, ← levels_le_iff] at hlast
      omega
  · have hlast : h ≤ m → last < 512 ^ m := fun hm =>
      (show last < 512 ^ h by omega).trans_le (Nat.pow_le_pow_right (by decide) hm)
    exact ⟨fun hm => ⟨hm, hlast hm⟩, And.left⟩

/-- What higher pages make of a tree. Where it fails, it is for a page. -/
structure Raised (root : Slot h) (n : ℕ) (zero : Bool) (s : Heap)
    (r : Option Error × ((h : ℕ) × Slot h) × Heap) : Prop where
  grows : s.Grows zero r.2.2
  entries : r.2.1.2.entries + s.got = root.entries + r.2.2.got
  height_le : h ≤ r.2.1.1
  le_height : r.2.1.1 ≤ h + n
  kept : ∀ l k b, treePtr ⟨h, root⟩ l k = some b → treePtr r.2.1 l k = some b
  above : ∀ l k, treePtr ⟨h, root⟩ l k = none → treePtr r.2.1 l k ≠ none → h < l ∧ k < 512 ^ l
  height_eq : r.1 = none → r.2.1.1 = h + n
  null : r.2.1.2.isNull = true → r.2.1.1 = h ∧ root.isNull = true
  failed : r.1 ≠ none → ¬ s.HasNodes

/-- The page that goes above a tree leads to the tree. -/
theorem treePtr_raise (root : Slot h) (l k : ℕ) :
    treePtr ⟨h + 1, .page b fun i => if i = 0 then root else .null⟩ l k =
      if l = h + 1 ∧ k < 512 ^ l then some b else treePtr ⟨h, root⟩ l k := by
  have hpow : 512 ^ h ≤ 512 ^ (h + 1) := Nat.pow_le_pow_right (by decide) (Nat.le_succ h)
  rw [treePtr, treePtr]
  split
  · rename_i hk
    rw [if_neg (by rintro ⟨rfl, hlt⟩; dsimp only at hk; omega), if_pos (by dsimp only at hk ⊢; omega)]
  · rename_i hk
    dsimp only at hk ⊢
    rw [Slot.ptr_page]
    by_cases hl : l = h + 1
    · rw [if_pos hl, if_pos ⟨hl, by subst hl; omega⟩]
    · rw [if_neg hl, if_neg (show ¬(l = h + 1 ∧ k < 512 ^ l) from fun hlk => hl hlk.1)]
      by_cases hkh : k < 512 ^ h
      · rw [Nat.div_eq_of_lt hkh, Nat.mod_eq_of_lt hkh, if_pos rfl, if_neg (by omega)]
      · rw [if_neg (by rw [Nat.div_eq_zero_iff]; omega), if_pos (by omega), Slot.ptr_null]

theorem entries_raise (root : Slot h) :
    (Slot.page b fun i => if i = 0 then root else .null).entries = (h + 1, b) ::ₘ root.entries := by
  rw [Slot.entries_page, Finset.sum_eq_single_of_mem 0 (Finset.mem_range.mpr (by decide))
    fun i _ hi => by rw [if_neg hi, Slot.entries_null], if_pos rfl]

theorem pmfsIncreaseBtreeHeight_raised (zero : Bool) (root : Slot h) (s : Heap) :
    Raised root n zero s (pmfsIncreaseBtreeHeight n h root s) := by
  induction n generalizing h s with
  | zero => exact ⟨.refl, rfl, le_rfl, le_rfl, fun _ _ _ h => h, fun _ _ h h' => absurd h h',
      fun _ => rfl, fun hnull => ⟨rfl, hnull⟩, fun h => absurd rfl h⟩
  | succ n ih =>
    have hstep : Heap.Step zero s (s.pmfsNewBlock (h + 1)).2 := .node s h
    rw [pmfsIncreaseBtreeHeight]
    revert hstep
    rw [Heap.pmfsNewBlock]
    cases hnode : s.node 0 with
    | error e =>
      intro hstep
      exact ⟨.single hstep, rfl, le_rfl, by dsimp only; omega, fun _ _ _ h => h,
        fun _ _ h h' => absurd h h', nofun, fun hnull => ⟨rfl, hnull⟩, fun _ hs => hs 0 e hnode⟩
    | ok b =>
      intro hstep
      dsimp only at hstep ⊢
      have hr := ih (.page b fun i => if i = 0 then root else .null) { s with
        node := fun n => s.node (n + 1), got := (h + 1, b) :: s.got }
      refine ⟨(Heap.Grows.single hstep).trans hr.grows, ?_, by have := hr.height_le; omega,
        by have := hr.le_height; omega, fun l k c hptr => hr.kept l k c ?_,
        fun l k hnone hptr => ?_, fun hok => by have := hr.height_eq hok; omega,
        fun hnull => by simpa [Slot.isNull] using (hr.null hnull).2,
        fun herr hs => hr.failed herr (hstep.hasNodes hs)⟩
      · have hentries := hr.entries
        rw [entries_raise, ← Multiset.cons_coe, Multiset.add_cons, Multiset.cons_add,
          Multiset.cons_inj_right] at hentries
        exact hentries
      · rw [treePtr_raise, if_neg, hptr]
        rintro ⟨rfl, -⟩
        have hk : k < 512 ^ h := lt_of_treePtr (t := ⟨h, root⟩) (l := h + 1) (by simp [hptr])
        rw [treePtr_of_lt hk] at hptr
        have hle := Slot.le_of_ptr (ne_of_eq_of_ne hptr (Option.some_ne_none c))
        exact Nat.not_succ_le_self h hle
      · by_cases hold : treePtr ⟨h + 1, .page b fun i => if i = 0 then root else .null⟩ l k = none
        · have := hr.above l k hold hptr
          exact ⟨by omega, this.2⟩
        · rw [treePtr_raise, hnone] at hold
          split at hold
          · rename_i hl
            exact ⟨by omega, hl.2⟩
          · exact absurd rfl hold

/-! ## Trees -/

/-- What an allocation does to a tree. -/
structure Added (t : (h : ℕ) × Slot h) (first last : ℕ) (zero : Bool) (s : Heap)
    (r : Option Error × ((h : ℕ) × Slot h) × Heap) : Prop where
  grows : s.Grows zero r.2.2
  entries : r.2.1.2.entries + s.got = t.2.entries + r.2.2.got
  kept : ∀ l k b, treePtr t l k = some b → treePtr r.2.1 l k = some b
  meets : ∀ l k, treePtr t l k = none → treePtr r.2.1 l k ≠ none →
    t.1 < l ∧ k < 512 ^ l ∨ Meets 512 first last l k
  found : r.1 = none → ∀ k, Within first last k → treePtr r.2.1 0 k ≠ none
  flagged : r.1 ≠ none → s.HasNodes → r.2.2.eofblocks = true ∨
    r.2.1 = t ∧ r.2.2.iBlocks = s.iBlocks ∧ r.2.2.eofblocks = s.eofblocks
  height : r.2.1.1 ≤ heightFor t.1 last
  null : r.2.1.2.isNull = true → r.2.1.1 = t.1 ∧ t.2.isNull = true
  stopped : r.1 ≠ none → ∃ m, StoppedAt (treePtr t 0) (treePtr r.2.1 0) first last m
  fed : r.2.2.eofblocks = true ∨ ∀ k, treePtr t 1 k = none → treePtr r.2.1 1 k ≠ none →
    k < 512 ^ 1 ∨ ∃ j, Within first last j ∧ j / 512 ^ 1 = k / 512 ^ 1 ∧ treePtr r.2.1 0 j ≠ none

theorem allocRoot_added (root : Slot h) (s : Heap) (hh : h = 0) :
    Added ⟨h, root⟩ 0 0 zero s (allocRoot zero h root s) := by
  subst hh
  rw [allocRoot]
  cases root with
  | data b =>
    refine ⟨.refl, rfl, fun _ _ _ h => h, fun _ _ h h' => absurd h h', fun _ k hk => ?_,
      fun h => absurd rfl h, Nat.zero_le _, fun hnull => ⟨rfl, hnull⟩, fun h => absurd rfl h,
      .inr fun k h h' => absurd h h'⟩
    obtain rfl : k = 0 := Nat.le_zero.mp hk.2
    exact Option.some_ne_none b
  | null =>
    have hdata : Heap.Step zero s (s.pmfsNewDataBlock zero).2 := .data s
    revert hdata
    rw [Heap.pmfsNewDataBlock]
    cases s.data 0 with
    | ok b =>
      intro hdata
      refine ⟨.single hdata, by simp [Slot.isNull, Slot.entries], fun l k b hptr => ?_,
        fun l k _ hptr => .inr ?_, fun _ k hk => ?_, fun h => absurd rfl h, Nat.zero_le _, fun h => absurd h Bool.false_ne_true,
        fun h => absurd rfl h, .inr fun k _ hptr => .inl ?_⟩
      · simp [treePtr] at hptr
      · obtain rfl : k = 0 := Nat.lt_one_iff.mp (lt_of_treePtr hptr)
        exact ⟨le_rfl, le_rfl⟩
      · obtain rfl : k = 0 := Nat.le_zero.mp hk.2
        exact Option.some_ne_none b
      · obtain rfl : k = 0 := Nat.lt_one_iff.mp (lt_of_treePtr hptr)
        decide
    | error e =>
      intro hdata
      exact ⟨.single hdata, rfl, fun _ _ _ h => h, fun _ _ h h' => absurd h h', fun h => absurd h (Option.some_ne_none e),
        fun _ _ => .inr ⟨rfl, rfl, rfl⟩, Nat.zero_le _, fun hnull => ⟨rfl, hnull⟩,
        fun _ => ⟨0, .start (Nat.zero_le _)⟩, .inr fun k h h' => absurd h h'⟩

/-- A tree is raised first, and then filled. -/
theorem Raised.filled {root : Slot h} {node : ℕ → Slot m} {r : Alloc (Slot (m + 1))}
    (hraised : Raised root n zero s (none, ⟨m + 1, .page b node⟩, s'))
    (hfilled : Filled (.page b node) (Within first last) first last zero s' r)
    (hheight : h + n = heightFor h last) (hr : r.val.isNull = false) :
    Added ⟨h, root⟩ first last zero s (r.errval, ⟨m + 1, r.val⟩, r.heap) := by
  have hm : m + 1 = h + n := hraised.height_eq rfl
  have hlast : last < 512 ^ (m + 1) := by
    rw [hm, hheight]
    exact (heightFor_le_iff.mp le_rfl).2
  refine ⟨hraised.grows.trans hfilled.grows, ?_, fun l k c hptr => ?_, fun l k hnone hptr => ?_,
    fun hok k hk => ?_, fun herr hs => .inl (hfilled.flagged herr (hraised.grows.hasNodes hs)),
    by dsimp only; omega, fun hnull => absurd (hr.symm.trans hnull) (by decide), fun herr => ?_,
    hfilled.fed.imp_right fun hfed k hnone hptr => ?_⟩
  · have hentries := hraised.entries
    have hentries' := hfilled.entries
    ext p
    have hentries := congrArg (Multiset.count p) hentries
    have hentries' := congrArg (Multiset.count p) hentries'
    simp only [Multiset.count_add] at *
    omega
  · have hptr' := hraised.kept l k c hptr
    have hk : k < 512 ^ (m + 1) := lt_of_treePtr (ne_of_eq_of_ne hptr' (Option.some_ne_none c))
    rw [treePtr_of_lt (t := ⟨m + 1, _⟩) hk] at hptr' ⊢
    exact hfilled.kept l k c hptr'
  · have hk : k < 512 ^ (m + 1) := lt_of_treePtr hptr
    rw [treePtr_of_lt (t := ⟨m + 1, _⟩) hk] at hptr
    by_cases hold : (Slot.page b node).ptr l k = none
    · exact .inr (hfilled.meets l k hk hold hptr)
    · refine .inl (hraised.above l k hnone ?_)
      rwa [treePtr_of_lt (t := ⟨m + 1, _⟩) hk]
  · rw [treePtr_of_lt (by have := hk.2; dsimp only; omega)]
    exact hfilled.found hok k hk
  · obtain ⟨i, hi⟩ := hfilled.stopped herr
    refine ⟨i, hi.le, fun k hk hki => ?_, fun k hnone hptr => ?_⟩
    · have hle := hi.le
      rw [treePtr_of_lt (by dsimp only; omega)]
      exact hi.found k hk hki
    · have hk : k < 512 ^ (m + 1) := lt_of_treePtr hptr
      rw [treePtr_of_lt (t := ⟨m + 1, _⟩) hk] at hptr
      refine hi.lt k ?_ hptr
      by_contra hold
      refine absurd (hraised.above 0 k hnone ?_).1 (Nat.not_lt_zero h)
      rwa [treePtr_of_lt (t := ⟨m + 1, _⟩) hk]
  · have hk : k < 512 ^ (m + 1) := lt_of_treePtr hptr
    rw [treePtr_of_lt (t := ⟨m + 1, _⟩) hk] at hptr
    by_cases hold : (Slot.page b node).ptr 1 k = none
    · obtain ⟨j, hj, hsame, hfound⟩ := hfed k hk hold hptr
      exact .inr ⟨j, hj, hsame, by rwa [treePtr_of_lt (t := ⟨m + 1, _⟩) (hj.2.trans_lt hlast)]⟩
    · refine .inl (hraised.above 1 k hnone ?_).2
      rwa [treePtr_of_lt (t := ⟨m + 1, _⟩) hk]

/-- What an allocation does. It follows no null pointer. -/
theorem pmfsAllocBlocks_cases {f : File} {num : ℕ} (blocknr : ℕ) (zero : Bool) (s : Env)
    (hnull : f.root.isNull = true → f.height = 0) (hnum : 0 < num) :
    pmfsAllocBlocks f blocknr num zero s = some (some .enospc, f, s) ∨
    ∃ r, pmfsAllocBlocks f blocknr num zero s = some (r.1, f.setTree r.2.1 r.2.2, r.2.2.toEnv) ∧
      Added ⟨f.height, f.root⟩ blocknr (blocknr + num - 1) zero (f.heap s) r ∧
      heightFor f.height (blocknr + num - 1) ≤ max f.height 3 := by
  obtain ⟨hheight, hlast⟩ := heightFor_le_iff.mp (le_refl (heightFor f.height (blocknr + num - 1)))
  rw [pmfsAllocBlocks]
  split
  · exact .inl rfl
  · rename_i hbig
    have hmax : heightFor f.height (blocknr + num - 1) ≤ max f.height 3 := by
      rw [heightFor] at hbig ⊢
      split
      · rename_i h
        rw [if_pos h] at hbig
        omega
      · exact le_max_left ..
    refine .inr ?_
    split
    · rename_i hzero
      rw [hzero] at hlast
      obtain rfl : blocknr = 0 := by omega
      obtain rfl : num = 1 := by omega
      exact ⟨_, rfl, allocRoot_added f.root _ (by omega), hmax⟩
    · rename_i hpos
      have hraised := pmfsIncreaseBtreeHeight_raised zero f.root (f.heap s)
        (n := heightFor f.height (blocknr + num - 1) - f.height)
      revert hraised
      cases hr : pmfsIncreaseBtreeHeight
        (heightFor f.height (blocknr + num - 1) - f.height) f.height f.root (f.heap s) with
      | mk errval rest =>
        obtain ⟨⟨m, t⟩, s'⟩ := rest
        intro hraised
        cases errval with
        | some e =>
          refine ⟨_, rfl, ⟨hraised.grows, hraised.entries, hraised.kept,
            fun l k h h' => .inl (hraised.above l k h h'), nofun,
            fun h hs => absurd hs (hraised.failed h), ?_, hraised.null, fun _ => ?_,
            .inr fun k h h' => .inl (hraised.above 1 k h h').2⟩, hmax⟩
          · have := hraised.le_height
            dsimp only at this ⊢
            omega
          · exact ⟨blocknr, by omega, fun _ hk hk' => absurd hk (Nat.not_le.mpr hk'), fun k h h' =>
              absurd (hraised.above 0 k h h').1 (Nat.not_lt_zero _)⟩
        | none =>
          have hm := hraised.height_eq rfl
          dsimp only at hm
          cases t with
          | null =>
            obtain ⟨hheight', hroot⟩ := hraised.null rfl
            have hzero := hnull hroot
            dsimp only at hheight'
            omega
          | data b => exact (hpos (by omega)).elim
          | page b node =>
            have hfilled := recursiveAllocBlocks_filled zero b node s'
              (by omega : blocknr ≤ blocknr + num - 1)
              (by rwa [hm, Nat.add_sub_cancel' hheight])
            exact ⟨_, rfl, hraised.filled hfilled (by omega) rfl, hmax⟩

/-! ## The range is filled -/

theorem Added.numData_eq {t : (h : ℕ) × Slot h}
    {r : Option Error × ((h : ℕ) × Slot h) × Heap} (hr : Added t first last zero s r) :
    r.2.2.iBlocks + numData t.2.entries = s.iBlocks + numData r.2.1.2.entries := by
  have hentries := congrArg numData hr.entries
  have hcount := hr.grows.count
  rw [map_add, map_add] at hentries
  omega

/-- After an allocation without an error there is what was there, and a block for every hole of the
range. -/
structure Fills (f : File) (blocknr num : ℕ) (s : Env) (f' : File) (s' : Env) : Prop where
  found : ∀ k, blocknr ≤ k → k < blocknr + num → ∃ b, b ≠ 0 ∧ pmfsFindDataBlock f' k = some b
  kept : ∀ k b, pmfsFindDataBlock f k = some b → pmfsFindDataBlock f' k = some b
  holes : ∀ k, ¬(blocknr ≤ k ∧ k < blocknr + num) → pmfsFindDataBlock f k = none →
    pmfsFindDataBlock f' k = none
  got : ∃ new : List (ℕ × ℕ), s'.got = new ++ s.got ∧ f'.root.entries = f.root.entries + new ∧
    (new.map Prod.snd).Nodup
  wellFormed : f'.WellFormed
  iBlocks : f'.iBlocks = f.iBlocks + ((Finset.Ico blocknr (blocknr + num)).filter
    fun k => pmfsFindDataBlock f k = none).card

/-- The entries of the new tree are those of the old one, and what was given. -/
theorem Added.gave {f : File} {r : Option Error × ((h : ℕ) × Slot h) × Heap}
    (hf : f.WellFormed) {d : Env} (hd : d.Gives (f.root.entries.map Prod.snd))
    (hr : Added ⟨f.height, f.root⟩ first last zero (f.heap d) r) (hheight : r.2.1.1 ≤ 3) :
    ∃ new, (f.heap d).Gave zero (f.root.entries.map Prod.snd) r.2.2 new ∧
      r.2.1.2.entries = f.root.entries + new ∧ (f.setTree r.2.1 r.2.2).WellFormed := by
  obtain ⟨new, hnew⟩ := hr.grows.gives hd ⟨hf.nodup, hf.nonzero⟩
  have hgot : r.2.2.got = new ++ d.got := hnew.got
  have hentries : r.2.1.2.entries = f.root.entries + new := by
    have h := hr.entries
    rw [hgot, ← Multiset.coe_add, ← add_assoc] at h
    exact add_right_cancel h
  have hmap : r.2.1.2.entries.map Prod.snd =
      (new.map Prod.snd : List ℕ) + f.root.entries.map Prod.snd := by
    rw [hentries, Multiset.map_add, Multiset.map_coe, add_comm]
  refine ⟨new, hnew, hentries, hheight, fun hnull => ?_, hmap ▸ hnew.apart.1, hmap ▸ hnew.apart.2⟩
  obtain ⟨hh, hroot⟩ := hr.null hnull
  exact hh.trans (hf.null hroot)

/-- What is new is the holes of the range. -/
theorem card_mapped_of_fills {f f' : File} {blocknr num : ℕ}
    (hfound : ∀ k, blocknr ≤ k → k < blocknr + num → ∃ b, b ≠ 0 ∧ pmfsFindDataBlock f' k = some b)
    (hkept : ∀ k b, pmfsFindDataBlock f k = some b → pmfsFindDataBlock f' k = some b)
    (hholes : ∀ k, ¬(blocknr ≤ k ∧ k < blocknr + num) → pmfsFindDataBlock f k = none →
      pmfsFindDataBlock f' k = none) :
    f'.mapped.card = f.mapped.card + ((Finset.Ico blocknr (blocknr + num)).filter
      fun k => pmfsFindDataBlock f k = none).card := by
  rw [← Finset.card_union_of_disjoint]
  · congr 1
    ext k
    rw [Finset.mem_union, mem_mapped, mem_mapped, Finset.mem_filter, Finset.mem_Ico,
      ← pmfsFindDataBlock_eq, ← pmfsFindDataBlock_eq]
    cases hk : pmfsFindDataBlock f k with
    | some b => simp [hkept k b hk]
    | none =>
      by_cases hrange : blocknr ≤ k ∧ k < blocknr + num
      · obtain ⟨b, -, hb⟩ := hfound k hrange.1 hrange.2
        simp [hb, hrange]
      · simp [hholes k hrange hk, hrange]
  · refine Finset.disjoint_left.mpr fun k hk hk' => ?_
    rw [mem_mapped, ← pmfsFindDataBlock_eq] at hk
    exact hk (Finset.mem_filter.mp hk').2

/-- An allocation without an error fills exactly the range. -/
theorem pmfsAllocBlocks_fills {f f' : File} {blocknr num : ℕ} {d d' : Env} (hf : f.WellFormed)
    (hd : d.Gives (f.root.entries.map Prod.snd)) (hnum : 0 < num) (hlast : blocknr + num - 1 < 2 ^ 27)
    (hok : pmfsAllocBlocks f blocknr num zero d = some (none, f', d')) :
    Fills f blocknr num d f' d' := by
  rcases pmfsAllocBlocks_cases blocknr zero d hf.null hnum with h | h
  · rw [h] at hok
    simp at hok
  · obtain ⟨⟨errval, t, s⟩, h, hadded, -⟩ := h
    rw [h] at hok
    simp only [Option.some.injEq, Prod.mk.injEq] at hok
    obtain ⟨rfl, rfl, rfl⟩ := hok
    have hheight : t.1 ≤ 3 := hadded.height.trans (heightFor_le_iff.mpr ⟨hf.height_le, by
      calc blocknr + num - 1 < 2 ^ 27 := hlast
        _ = 512 ^ 3 := by norm_num⟩)
    obtain ⟨new, hnew, hentries, hwell⟩ := hadded.gave hf hd hheight
    have hptr : ∀ k, pmfsFindDataBlock (f.setTree t s) k = treePtr t 0 k := pmfsFindDataBlock_eq _
    have hin : ∀ k, Within blocknr (blocknr + num - 1) k ↔ blocknr ≤ k ∧ k < blocknr + num :=
      fun k => and_congr_right fun _ => by omega
    have hholes : ∀ k, ¬(blocknr ≤ k ∧ k < blocknr + num) → pmfsFindDataBlock f k = none →
        pmfsFindDataBlock (f.setTree t s) k = none := by
      intro k hk hnone
      rw [hptr]
      rw [pmfsFindDataBlock_eq] at hnone
      by_contra hsome
      rcases hadded.meets 0 k hnone hsome with ⟨hl, -⟩ | hmeets
      · exact absurd hl (Nat.not_lt_zero _)
      · exact hk ((hin k).mp (meets_zero.mp hmeets))
    have hfound : ∀ k, blocknr ≤ k → k < blocknr + num →
        ∃ b, b ≠ 0 ∧ pmfsFindDataBlock (f.setTree t s) k = some b := by
      intro k hk hk'
      have hsome := hadded.found rfl k ((hin k).mpr ⟨hk, hk'⟩)
      obtain ⟨b, hb⟩ := Option.ne_none_iff_exists'.mp hsome
      refine ⟨b, fun hzero => hwell.nonzero ?_, (hptr k).trans hb⟩
      exact Multiset.mem_map.mpr ⟨(0, b), mem_entries.mpr ⟨k, hb⟩, hzero⟩
    have hkept : ∀ k b, pmfsFindDataBlock f k = some b →
        pmfsFindDataBlock (f.setTree t s) k = some b := by
      intro k b hk
      rw [hptr]
      rw [pmfsFindDataBlock_eq] at hk
      exact hadded.kept 0 k b hk
    have honce : (new.map Prod.snd).Nodup :=
      Multiset.coe_nodup.mp (Multiset.nodup_add.mp hnew.apart.1).1
    refine ⟨hfound, hkept, hholes, ⟨new, hnew.got, hentries, honce⟩, hwell, ?_⟩
    have hcount : s.iBlocks + numData f.root.entries = f.iBlocks + numData t.2.entries :=
      hadded.numData_eq
    have hcard := card_mapped_of_fills hfound hkept hholes
    rw [card_mapped, card_mapped] at hcard
    exact Nat.add_right_cancel (hcount.trans (by
      rw [show numData t.2.entries = _ from hcard]
      omega))

/-- A file of one block, whose block 1 is allocated: a page above the block comes first. -/
theorem pmfsAllocBlocks_fills_second : ∃ f' d', Fills ⟨0, .data 7, 4096, 1, false, 0⟩ 1 1
    ⟨fun n => .ok (100 + 2 * n), fun n => .ok (101 + 2 * n), [], fun _ _ => 0⟩ f' d' := by
  refine ⟨_, _, pmfsAllocBlocks_fills ⟨by decide, nofun, by simp [Slot.entries],
    by simp [Slot.entries]⟩ ⟨?_, ?_⟩ (by decide) (by decide)
    (show pmfsAllocBlocks _ 1 1 false _ = some (none, _, _) from rfl)⟩
  · rintro (i | i) (j | j) b hi hj <;> simp [Env.answer] at hi hj ⊢ <;> omega
  · rintro (i | i) b hi <;> simp [Env.answer, Slot.entries] at hi ⊢ <;> omega

end Wpmfs.File
