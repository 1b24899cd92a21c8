import Mathlib.Algebra.Order.Ring.Int
import Mathlib.Algebra.Order.Ring.Nat
import Mathlib.Algebra.Ring.Divisibility.Basic
import Mathlib.Algebra.Ring.Nat
import Mathlib.Order.Interval.Finset.Nat
import Wpmfs.Inode.Slots

/-!
# Slots are reused before the table grows

As long as creations and frees do not overlap, every slot from number 3 up to the hint is in use.
So the search from the hint upwards finds a free slot if there is one, and the table grows only if
there is none.
-/

namespace Wpmfs.Inode

namespace Slots

/-- `pmfs_init_inode_table`: `numInodes` is the mount option, 0 if it is not given, and `first` what
is then written to the slots that are never given to a new inode. -/
def pmfsInitInodeTable (numInodes : ℕ) (first : ℕ → PmfsInode) : Slots :=
  let initInodeTableSize := if numInodes = 0 then 4096 else numInodes * 128
  let numBlocks := (initInodeTableSize + 4095) / 4096
  let sInodesCount := numBlocks * inodesPerBlock
  { table := fun i => if i < pmfsFreeInodeHintStart then first i else ⟨0, 0, 0⟩
    sInodesCount := sInodesCount
    sFreeInodesCount := sInodesCount - pmfsFreeInodeHintStart
    sFreeInodeHint := pmfsFreeInodeHintStart
    chosen := []
    pending := [] }

/-- `pmfs_new_inode` with no other call in between: the slot, or none if the table cannot grow. -/
def pmfsNewInode (grows mode : ℕ) (s : Slots) : Option (Option ℕ × Slots) :=
  (s.choose grows).map fun t =>
    match t.pending with
    | [] => (none, t)
    | i :: _ => (some i, t.pmfsUpdateInode i mode)

/-- `pmfs_free_inode` of slot `i`, which then holds `pi`. -/
def released (s : Slots) (i : ℕ) (pi : PmfsInode) : Slots :=
  { s.pmfsFreeInode i 0 with table := Function.update s.table i pi }

/-- One call after the other. A free that finds no room for its transaction changes nothing, and
between the calls the link counts of the inodes in use may change. Where a new inode gets no name,
it is freed again and its creation is undone: the slot holds what it held before, also in a block
that is new. -/
inductive Alternates (s : Slots) : Slots → Prop
  | newInode {grows mode : ℕ} {r : Option ℕ} {t : Slots} (hmode : mode ≠ 0)
      (hnew : s.pmfsNewInode grows mode = some (r, t)) : Alternates s t
  | newInodeAborted {grows mode i : ℕ} {t : Slots} (hmode : mode ≠ 0)
      (hnew : s.pmfsNewInode grows mode = some (some i, t)) :
      Alternates s (t.released i (s.pmfsIncreaseInodeTableSize.table i))
  | freeInode {i seconds : ℕ} (hlegal : s.Legal (.freeInode i seconds)) :
      Alternates s (s.pmfsFreeInode i seconds)
  | updateNlink {i n : ℕ} (hlegal : s.Legal (.updateNlink i n)) :
      Alternates s (s.pmfsUpdateNlink i n)

/-- The free slots that a new inode may get. -/
def freeSlots (s : Slots) : Finset ℕ :=
  {k ∈ Finset.Ico pmfsFreeInodeHintStart s.sInodesCount | (s.table k).IsFree}

/-- The invariant: no free slot lies below the hint, and the counter is exact. -/
structure Exact (s : Slots) : Prop where
  sound : s.Sound
  pending : s.pending = []
  chosen : ∀ i ∈ s.chosen, pmfsFreeInodeHintStart ≤ i
  aligned : inodesPerBlock ∣ s.sInodesCount
  count_le : s.sInodesCount ≤ 2 ^ 31
  le_hint : pmfsFreeInodeHintStart ≤ s.sFreeInodeHint
  hint_lt : s.sFreeInodeHint < s.sInodesCount
  used : ∀ k, pmfsFreeInodeHintStart ≤ k → k < s.sFreeInodeHint → ¬(s.table k).IsFree
  count : s.sFreeInodesCount = s.freeSlots.card

variable {s s' t : Slots} {table : ℕ → PmfsInode} {n i j numInodes fuel grows mode : ℕ}
  {r : Option ℕ} {pi : PmfsInode}

@[simp] theorem mem_freeSlots : i ∈ s.freeSlots ↔
    (pmfsFreeInodeHintStart ≤ i ∧ i < s.sInodesCount) ∧ (s.table i).IsFree := by
  simp [freeSlots]

/-- The search goes through whole blocks and stops at the end of the last one. -/
theorem search_le (haligned : inodesPerBlock ∣ numInodes) (hi : i ≤ numInodes)
    (h : search table numInodes fuel i = some j) : j ≤ numInodes := by
  induction fuel generalizing i with
  | zero =>
    obtain rfl := Option.some.inj h
    exact hi
  | succ fuel ih =>
    rw [search] at h
    split at h
    · split at h
      · cases h
      have hblock : i + (inodesPerBlock - i % inodesPerBlock) ≤ numInodes := by
        unfold inodesPerBlock at haligned ⊢
        omega
      dsimp only at h
      obtain ⟨-, hend, -, -⟩ := @searchBlock_spec table (inodesPerBlock - i % inodesPerBlock) i
      split at h
      · obtain rfl := Option.some.inj h
        omega
      · exact ih (by omega) h
    · obtain rfl := Option.some.inj h
      exact hi

theorem lt_of_findSlot {x : Option ℕ × Slots} (hi : i < s.sInodesCount)
    (h : findSlot grows i s = some x) : i < 2 ^ 24 := by
  by_contra hge
  have hsearch : search s.table s.sInodesCount (s.sInodesCount + 1) i = none := by
    rw [search, if_pos hi, if_pos (by omega)]
  cases grows <;> simp [findSlot, hsearch] at h

theorem increase_free (h : s.sInodesCount = i) : (s.pmfsIncreaseInodeTableSize.table i).IsFree := by
  have hzero : s.pmfsIncreaseInodeTableSize.table i = ⟨0, 0, 0⟩ :=
    if_pos ⟨h.le, by unfold inodesPerBlock; omega⟩
  rw [hzero]
  decide

/-- The slot found is the first free one; if there is none, it is the first of a new block. -/
theorem findSlot_first (haligned : inodesPerBlock ∣ s.sInodesCount) (hi : i ≤ s.sInodesCount)
    (h : findSlot grows i s = some (r, t)) :
    (∃ j, r = some j ∧ t = s ∧ i ≤ j ∧ j < s.sInodesCount ∧ (s.table j).IsFree ∧
      ∀ k, i ≤ k → k < j → ¬(s.table k).IsFree) ∨
    (∀ k, i ≤ k → k < s.sInodesCount → ¬(s.table k).IsFree) ∧
      (r = none ∧ t = s ∨
        r = some s.sInodesCount ∧ t = s.pmfsIncreaseInodeTableSize ∧ s.sInodesCount < 2 ^ 24) := by
  fun_induction findSlot grows i s with
  | case1 => cases h
  | case2 grows i s j hsearch hlt =>
    obtain ⟨hle, hskip, hfound⟩ := search_spec (by omega) hsearch
    obtain ⟨rfl, rfl⟩ := Prod.mk.inj (Option.some.inj h)
    exact .inl ⟨j, rfl, rfl, hle, hlt, hfound hlt, hskip⟩
  | case3 i s j hsearch hge =>
    obtain ⟨hle, hskip, -⟩ := search_spec (by omega) hsearch
    obtain ⟨rfl, rfl⟩ := Prod.mk.inj (Option.some.inj h)
    exact .inr ⟨fun k hk hlt => hskip k hk (by omega), .inl ⟨rfl, rfl⟩⟩
  | case4 i s j hsearch hge grows ih =>
    obtain ⟨hle, hskip, -⟩ := search_spec (by omega) hsearch
    have hend := search_le haligned hi hsearch
    obtain rfl : j = s.sInodesCount := by omega
    have hcount : s.pmfsIncreaseInodeTableSize.sInodesCount = s.sInodesCount + inodesPerBlock := rfl
    have hlt : s.sInodesCount < s.pmfsIncreaseInodeTableSize.sInodesCount := by
      unfold inodesPerBlock at hcount
      omega
    -- the first slot of the new block is free
    have hnew : (s.pmfsIncreaseInodeTableSize.table s.sInodesCount).IsFree := increase_free rfl
    refine .inr ⟨hskip, .inr ?_⟩
    rcases ih (hcount ▸ dvd_add haligned dvd_rfl) hlt.le h with
      ⟨l, rfl, rfl, hjl, -, -, hbefore⟩ | ⟨hnone, -⟩
    · obtain rfl : l = s.sInodesCount := by
        by_contra hne
        exact hbefore _ le_rfl (by omega) hnew
      exact ⟨rfl, rfl, lt_of_findSlot hlt h⟩
    · exact absurd hnew (hnone _ le_rfl hlt)

/-- The table after slot `i` was given to an inode of this mode. -/
def taken (s : Slots) (i mode : ℕ) : Slots :=
  { s with
    table := Function.update s.table i ⟨1, mode, 0⟩
    sFreeInodesCount := (s.sFreeInodesCount + 2 ^ 32 - 1) % 2 ^ 32
    sFreeInodeHint := if i < s.sInodesCount - 1 then i + 1 else pmfsFreeInodeHintStart
    chosen := i :: s.chosen }

theorem pmfsNewInode_of_found {u : Slots}
    (hfind : findSlot grows s.sFreeInodeHint s = some (some i, u)) :
    s.pmfsNewInode grows mode = some (some i, u.taken i mode) := by
  rw [pmfsNewInode, choose, hfind, taken]
  simp only [Option.map_some, pmfsUpdateInode, Function.update_self, Function.update_idem,
    List.erase_cons_head]

theorem pmfsNewInode_of_full {u : Slots} (hpending : u.pending = [])
    (hfind : findSlot grows s.sFreeInodeHint s = some (none, u)) :
    s.pmfsNewInode grows mode = some (none, u) := by
  rw [pmfsNewInode, choose, hfind, Option.map_some]
  simp only [hpending]

/-- A creation takes the first free slot from the hint on. If there is none, the table grows and its
first new slot is taken, or nothing changes. -/
theorem pmfsNewInode_cases (h : s.Exact) (hnew : s.pmfsNewInode grows mode = some (r, t)) :
    (∃ j, r = some j ∧ t = s.taken j mode ∧ s.sFreeInodeHint ≤ j ∧ j < s.sInodesCount ∧
      (s.table j).IsFree ∧ ∀ k, s.sFreeInodeHint ≤ k → k < j → ¬(s.table k).IsFree) ∨
    (∀ k, s.sFreeInodeHint ≤ k → k < s.sInodesCount → ¬(s.table k).IsFree) ∧
      (r = none ∧ t = s ∨
        r = some s.sInodesCount ∧ t = s.pmfsIncreaseInodeTableSize.taken s.sInodesCount mode ∧
          s.sInodesCount < 2 ^ 24) := by
  cases hfind : findSlot grows s.sFreeInodeHint s with
  | none =>
    rw [pmfsNewInode, choose, hfind] at hnew
    cases hnew
  | some x =>
    obtain ⟨q, u⟩ := x
    rcases findSlot_first h.aligned h.hint_lt.le hfind with
      ⟨j, rfl, rfl, hle, hlt, hfree, hfirst⟩ | ⟨hnone, ⟨rfl, rfl⟩ | ⟨rfl, rfl, hsmall⟩⟩
    · rw [pmfsNewInode_of_found hfind] at hnew
      obtain ⟨rfl, rfl⟩ := Prod.mk.inj (Option.some.inj hnew)
      exact .inl ⟨j, rfl, rfl, hle, hlt, hfree, hfirst⟩
    · rw [pmfsNewInode_of_full h.pending hfind] at hnew
      obtain ⟨rfl, rfl⟩ := Prod.mk.inj (Option.some.inj hnew)
      exact .inr ⟨hnone, .inl ⟨rfl, rfl⟩⟩
    · rw [pmfsNewInode_of_found hfind] at hnew
      obtain ⟨rfl, rfl⟩ := Prod.mk.inj (Option.some.inj hnew)
      exact .inr ⟨hnone, .inr ⟨rfl, rfl, hsmall⟩⟩

/-! ## The invariant is kept -/

@[simp] theorem taken_table_of_ne (h : n ≠ i) : (s.taken i mode).table n = s.table n :=
  Function.update_of_ne h ..

@[simp] theorem taken_table_self : (s.taken i mode).table i = ⟨1, mode, 0⟩ :=
  Function.update_self ..

theorem taken_used : ¬((s.taken i mode).table i).IsFree := by
  rw [taken_table_self]
  exact fun h => absurd h.1 one_ne_zero

theorem freeSlots_taken : (s.taken i mode).freeSlots = s.freeSlots.erase i := by
  ext k
  rw [Finset.mem_erase, mem_freeSlots, mem_freeSlots]
  by_cases hk : k = i
  · subst hk
    simp [taken_used, -taken_table_self]
  · rw [taken_table_of_ne hk, and_iff_right hk]
    rfl

theorem freeSlots_increase (h : pmfsFreeInodeHintStart ≤ s.sInodesCount) :
    s.pmfsIncreaseInodeTableSize.freeSlots =
      s.freeSlots ∪ Finset.Ico s.sInodesCount (s.sInodesCount + inodesPerBlock) := by
  ext k
  rw [Finset.mem_union, mem_freeSlots, mem_freeSlots, Finset.mem_Ico]
  dsimp only [pmfsIncreaseInodeTableSize]
  split
  · have hfree : PmfsInode.IsFree ⟨0, 0, 0⟩ := by decide
    grind
  · grind

theorem Sound.taken (h : s.Sound) (hout : i ∉ s.chosen) (hi : i < s.sInodesCount)
    (hmode : mode ≠ 0) : (s.taken i mode).Sound := by
  have hother : ∀ j ∈ s.chosen, (s.taken i mode).table j = s.table j := fun j hj =>
    taken_table_of_ne (ne_of_mem_of_not_mem hj hout)
  refine ⟨List.nodup_cons.mpr ⟨hout, h.nodup⟩, fun j hj => List.mem_cons_of_mem _ (h.pending j hj),
    List.forall_mem_cons.mpr ⟨hi, h.lt⟩, List.forall_mem_cons.mpr ⟨?_, fun j hj => ?_⟩,
    List.forall_mem_cons.mpr ⟨fun _ => ?_, fun j hj hp => ?_⟩⟩
  · rw [taken_table_self]
  · rw [hother j hj, h.dtime j hj]
  · rwa [taken_table_self]
  · rw [hother j hj]
    exact h.mode j hj hp

theorem card_freeSlots_le : s.freeSlots.card ≤ s.sInodesCount - pmfsFreeInodeHintStart := by
  rw [freeSlots, ← Nat.card_Ico]
  exact Finset.card_filter_le ..

/-- A free slot from the hint on is given away. -/
theorem Exact.taken (h : s.Exact) (hhint : s.sFreeInodeHint ≤ i) (hi : i < s.sInodesCount)
    (hfree : (s.table i).IsFree)
    (hfirst : ∀ k, s.sFreeInodeHint ≤ k → k < i → ¬(s.table k).IsFree) (hmode : mode ≠ 0) :
    (s.taken i mode).Exact := by
  have hstart := h.le_hint
  have hout : i ∉ s.chosen := by
    intro hmem
    have := h.sound.pending_of_free hmem hfree
    rw [h.pending] at this
    cases this
  have hmem : i ∈ s.freeSlots := mem_freeSlots.mpr ⟨⟨by omega, hi⟩, hfree⟩
  have hcard := Finset.card_pos.mpr ⟨i, hmem⟩
  have hle := card_freeSlots_le (s := s)
  have hbound := h.count_le
  refine ⟨h.sound.taken hout hi hmode, h.pending, ?_, h.aligned, h.count_le, ?_, ?_, ?_, ?_⟩
  · exact List.forall_mem_cons.mpr ⟨by omega, h.chosen⟩
  · dsimp only [Slots.taken]
    split <;> omega
  · dsimp only [Slots.taken]
    unfold pmfsFreeInodeHintStart at *
    split <;> omega
  · intro k hk hlt
    rcases Nat.lt_trichotomy k i with hki | rfl | hki
    · rw [taken_table_of_ne hki.ne]
      by_cases hbefore : k < s.sFreeInodeHint
      · exact h.used k hk hbefore
      · exact hfirst k (by omega) hki
    · exact taken_used
    · -- the hint is moved behind the slot or back to the start
      dsimp only [Slots.taken] at hlt
      split at hlt <;> omega
  · rw [freeSlots_taken, Finset.card_erase_of_mem hmem, ← h.count]
    dsimp only [Slots.taken]
    have := h.count
    omega

theorem Exact.increase (h : s.Exact)
    (hnone : ∀ k, s.sFreeInodeHint ≤ k → k < s.sInodesCount → ¬(s.table k).IsFree)
    (hsmall : s.sInodesCount < 2 ^ 24) : s.pmfsIncreaseInodeTableSize.Exact := by
  have hstart := h.le_hint
  have hlt := h.hint_lt
  have hle := card_freeSlots_le (s := s)
  have hgrown := grown_increase s
  have hold : ∀ k < s.sInodesCount, s.pmfsIncreaseInodeTableSize.table k = s.table k :=
    hgrown.table
  refine ⟨h.sound.grown hgrown, h.pending, h.chosen, dvd_add h.aligned dvd_rfl, ?_, ?_, ?_, ?_, ?_⟩
  · dsimp only [pmfsIncreaseInodeTableSize, inodesPerBlock]
    omega
  · dsimp only [pmfsIncreaseInodeTableSize]
    omega
  · dsimp only [pmfsIncreaseInodeTableSize, inodesPerBlock]
    omega
  · intro k hk hlt
    rw [hold k hlt]
    by_cases hbefore : k < s.sFreeInodeHint
    · exact h.used k hk hbefore
    · exact hnone k (by omega) hlt
  · have hdisj : Disjoint s.freeSlots (Finset.Ico s.sInodesCount (s.sInodesCount + inodesPerBlock)) :=
      Finset.disjoint_left.mpr fun k hk hnew => by grind [mem_freeSlots]
    rw [freeSlots_increase (by omega), Finset.card_union_of_disjoint hdisj, Nat.card_Ico, ← h.count]
    have := h.count
    dsimp only [pmfsIncreaseInodeTableSize, inodesPerBlock]
    omega

/-- What the slot of a new inode held before was free. -/
theorem pmfsNewInode_restored (h : s.Exact) (hnew : s.pmfsNewInode grows mode = some (some i, t)) :
    (s.pmfsIncreaseInodeTableSize.table i).IsFree ∧ i ∈ t.chosen := by
  rcases pmfsNewInode_cases h hnew with
    ⟨j, hj, rfl, -, hlt, hfree, -⟩ | ⟨-, ⟨hr, -⟩ | ⟨hr, rfl, -⟩⟩
  · cases hj
    rw [(grown_increase s).table i hlt]
    exact ⟨hfree, List.mem_cons_self ..⟩
  · cases hr
  · cases hr
    exact ⟨increase_free rfl, List.mem_cons_self ..⟩

theorem Exact.newInode (h : s.Exact) (hmode : mode ≠ 0)
    (hnew : s.pmfsNewInode grows mode = some (r, t)) : t.Exact := by
  rcases pmfsNewInode_cases h hnew with
    ⟨j, -, rfl, hle, hlt, hfree, hfirst⟩ | ⟨hnone, ⟨-, rfl⟩ | ⟨-, rfl, hsmall⟩⟩
  · exact h.taken hle hlt hfree hfirst hmode
  · exact h
  · have hincrease := h.increase hnone hsmall
    exact hincrease.taken le_rfl hincrease.hint_lt (increase_free rfl)
      (fun k hk hlt => absurd hlt (Nat.not_lt.mpr hk)) hmode

theorem Sound.released (h : s.Sound) (hp : i ∉ s.pending) : (s.released i pi).Sound := by
  have hother : ∀ j ∈ s.chosen.erase i, j ≠ i ∧ j ∈ s.chosen := fun j hj =>
    h.nodup.mem_erase_iff.mp hj
  have hsame : ∀ j ∈ s.chosen.erase i, (s.released i pi).table j = s.table j := fun j hj =>
    Function.update_of_ne (hother j hj).1 ..
  refine ⟨h.nodup.erase i, fun j hj => ?_, fun j hj => h.lt j (hother j hj).2, fun j hj => ?_,
    fun j hj hpj => ?_⟩
  · exact (List.mem_erase_of_ne (ne_of_mem_of_not_mem hj hp)).mpr (h.pending j hj)
  · rw [hsame j hj]
    exact h.dtime j (hother j hj).2
  · rw [hsame j hj]
    exact h.mode j (hother j hj).2 hpj

/-- The slot of an inode in use becomes free. -/
theorem Exact.released (h : s.Exact) (hmem : i ∈ s.chosen) (hpi : pi.IsFree) :
    (s.released i pi).Exact := by
  have hp : i ∉ s.pending := by simp [h.pending]
  have hi := h.sound.lt i hmem
  have hpos := h.chosen i hmem
  have hstart := h.le_hint
  have hlt := h.hint_lt
  have hself : (s.released i pi).table i = pi := Function.update_self ..
  have hother : ∀ k ≠ i, (s.released i pi).table k = s.table k := fun k hk =>
    Function.update_of_ne hk ..
  have hcount : (s.released i pi).sInodesCount = s.sInodesCount := rfl
  have hout : i ∉ s.freeSlots := by
    rw [mem_freeSlots]
    rintro ⟨-, hfree⟩
    exact hp (h.sound.pending_of_free hmem hfree)
  have hslots : (s.released i pi).freeSlots = insert i s.freeSlots := by
    ext k
    rw [Finset.mem_insert, mem_freeSlots, mem_freeSlots]
    by_cases hk : k = i
    · subst hk
      simp [hself, hcount, hpi, hpos, hi]
    · rw [hother k hk, hcount]
      simp [hk]
  have hcard := Finset.card_insert_of_notMem hout
  rw [← hslots, ← h.count] at hcard
  have hle := card_freeSlots_le (s := s.released i pi)
  have hbound := h.count_le
  -- the counter does not wrap around
  have hfree : (s.sFreeInodesCount + 1) % 2 ^ 32 = s.sFreeInodesCount + 1 :=
    Nat.mod_eq_of_lt (by omega)
  refine ⟨h.sound.released hp, h.pending, fun j hj => h.chosen j (List.mem_of_mem_erase hj),
    h.aligned, h.count_le, ?_, ?_, fun k hk hbefore => ?_, ?_⟩
  · dsimp only [Slots.released, pmfsFreeInode]
    split
    · exact le_rfl
    · split <;> omega
  · rw [hcount]
    dsimp only [Slots.released, pmfsFreeInode]
    split
    · omega
    · split <;> omega
  · have hki : k ≠ i ∧ k < s.sFreeInodeHint := by
      dsimp only [Slots.released, pmfsFreeInode] at hbefore
      split at hbefore
      · omega
      · split at hbefore <;> omega
    rw [hother k hki.1]
    exact h.used k hk hki.2
  · rw [hcard]
    exact hfree

theorem Exact.freeInode {seconds : ℕ} (h : s.Exact) (hlegal : s.Legal (.freeInode i seconds)) :
    (s.pmfsFreeInode i seconds).Exact := by
  obtain ⟨hmem, -, hlinks, hseconds⟩ := hlegal
  exact h.released hmem ⟨hlinks, .inr hseconds⟩

theorem Exact.updateNlink {m : ℕ} (h : s.Exact) (hlegal : s.Legal (.updateNlink i m)) :
    (s.pmfsUpdateNlink i m).Exact := by
  have hsound := h.sound.step hlegal trivial rfl
  have hused : ¬(s.table i).IsFree := fun hfree =>
    hlegal.2 (h.sound.pending_of_free hlegal.1 hfree)
  have hused' : ¬((s.pmfsUpdateNlink i m).table i).IsFree := fun hfree =>
    hlegal.2 (hsound.pending_of_free hlegal.1 hfree)
  have hsame : ∀ k, ((s.pmfsUpdateNlink i m).table k).IsFree ↔ (s.table k).IsFree := by
    intro k
    by_cases hk : k = i
    · subst hk
      exact iff_of_false hused' hused
    · have hother : (s.pmfsUpdateNlink i m).table k = s.table k := Function.update_of_ne hk ..
      rw [hother]
  have hslots : (s.pmfsUpdateNlink i m).freeSlots = s.freeSlots :=
    Finset.filter_congr fun k _ => hsame k
  refine ⟨hsound, h.pending, h.chosen, h.aligned, h.count_le, h.le_hint, h.hint_lt, ?_, ?_⟩
  · exact fun k hk hlt hfree => h.used k hk hlt ((hsame k).mp hfree)
  · rw [hslots]
    exact h.count

theorem Alternates.exact (hstep : s.Alternates t) (h : s.Exact) : t.Exact := by
  cases hstep with
  | newInode hmode hnew => exact h.newInode hmode hnew
  | newInodeAborted hmode hnew =>
    obtain ⟨hfree, hmem⟩ := pmfsNewInode_restored h hnew
    exact (h.newInode hmode hnew).released hmem hfree
  | freeInode hlegal => exact h.freeInode hlegal
  | updateNlink hlegal => exact h.updateNlink hlegal

theorem exact_pmfsInitInodeTable {numInodes : ℕ} {first : ℕ → PmfsInode} (hnum : numInodes < 2 ^ 31) :
    (pmfsInitInodeTable numInodes first).Exact := by
  have hslots : (pmfsInitInodeTable numInodes first).freeSlots = Finset.Ico pmfsFreeInodeHintStart
      (pmfsInitInodeTable numInodes first).sInodesCount := by
    refine Finset.filter_true_of_mem fun k hk => ?_
    have hzero : (pmfsInitInodeTable numInodes first).table k = ⟨0, 0, 0⟩ :=
      if_neg (by have := Finset.mem_Ico.mp hk; omega)
    rw [hzero]
    decide
  refine ⟨⟨List.nodup_nil, nofun, nofun, nofun, nofun⟩, rfl, nofun, Nat.dvd_mul_left .., ?_, le_rfl,
    ?_, fun k hk hlt => absurd hlt (Nat.not_lt.mpr hk), ?_⟩
  · dsimp only [pmfsInitInodeTable, inodesPerBlock]
    split <;> omega
  · dsimp only [pmfsInitInodeTable, inodesPerBlock, pmfsFreeInodeHintStart]
    split <;> omega
  · rw [hslots, Nat.card_Ico]
    rfl

/-- From a fresh file system, by any creations and frees that do not overlap: the slots from number
3 up to the hint are in use, the counter is the number of free slots from 3 on, a new inode gets
such a slot, of the table or of the table with one block more, and the table grows only if no slot
from 3 on is free. -/
theorem Alternates.reused {first : ℕ → PmfsInode} (hnum : numInodes < 2 ^ 31)
    (hrun : Relation.ReflTransGen Alternates (pmfsInitInodeTable numInodes first) s) :
    (∀ k, 3 ≤ k → k < s.sFreeInodeHint → ¬(s.table k).IsFree) ∧
    s.sFreeInodesCount = s.freeSlots.card ∧
    (∀ grows mode i t, s.pmfsNewInode grows mode = some (some i, t) → 3 ≤ i ∧
      ∃ u, (u = s ∨ u = s.pmfsIncreaseInodeTableSize) ∧ t.sInodesCount = u.sInodesCount ∧
        i ∈ u.freeSlots) ∧
    ∀ grows mode r t, s.pmfsNewInode grows mode = some (r, t) →
      t.sInodesCount ≠ s.sInodesCount → s.freeSlots = ∅ := by
  have h : s.Exact := by
    induction hrun with
    | refl => exact exact_pmfsInitInodeTable hnum
    | tail _ hstep ih => exact hstep.exact ih
  have hstart := h.le_hint
  have hlt := h.hint_lt
  refine ⟨h.used, h.count, fun grows mode i t hnew => ?_, fun grows mode r t hnew hgrown => ?_⟩
  · rcases pmfsNewInode_cases h hnew with
      ⟨j, hj, rfl, hle, hlt, hfree, -⟩ | ⟨-, ⟨hr, -⟩ | ⟨hr, rfl, -⟩⟩
    · cases hj
      exact ⟨hstart.trans hle, s, .inl rfl, rfl, mem_freeSlots.mpr ⟨⟨hstart.trans hle, hlt⟩, hfree⟩⟩
    · cases hr
    · cases hr
      have hi : pmfsFreeInodeHintStart ≤ s.sInodesCount := by omega
      refine ⟨hi, _, .inr rfl, rfl, mem_freeSlots.mpr ⟨⟨hi, ?_⟩, increase_free rfl⟩⟩
      exact Nat.lt_add_of_pos_right (by decide)
  · rcases pmfsNewInode_cases h hnew with ⟨j, -, rfl, -⟩ | ⟨hnone, ⟨-, rfl⟩ | -⟩
    · exact absurd rfl hgrown
    · exact absurd rfl hgrown
    · refine Finset.eq_empty_of_forall_notMem fun k hk => ?_
      obtain ⟨⟨hk, hlt⟩, hfree⟩ := mem_freeSlots.mp hk
      by_cases hbefore : k < s.sFreeInodeHint
      · exact h.used k hk hbefore hfree
      · exact hnone k (by omega) hlt hfree

/-- A fresh table of one block. -/
def freshTable : Slots := pmfsInitInodeTable 0 fun _ => ⟨1, 0x41ed, 0⟩

/-- The table after its first creation. -/
def firstCreated : Slots := ((freshTable.pmfsNewInode 0 0x81a4).getD (none, freshTable)).2

theorem reused_firstCreated : Relation.ReflTransGen Alternates freshTable firstCreated ∧
    firstCreated.sFreeInodesCount = firstCreated.freeSlots.card ∧
    firstCreated.sFreeInodeHint = 4 := by
  have hnew : freshTable.pmfsNewInode 0 0x81a4 = some (some 3, firstCreated) := rfl
  have hrun : Relation.ReflTransGen Alternates freshTable firstCreated :=
    .single (.newInode (by decide) hnew)
  exact ⟨hrun, (Alternates.reused (by decide) hrun).2.1, rfl⟩

end Slots

end Wpmfs.Inode
