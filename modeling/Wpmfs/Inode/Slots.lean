import Mathlib.Algebra.Order.Ring.Int
import Mathlib.Algebra.Order.Ring.Nat
import Mathlib.Data.List.Nodup
import Mathlib.Data.Nat.Basic
import Mathlib.Logic.Function.Basic
import Mathlib.Logic.Relation

/-!
# Slots of the inode table

`pmfs_new_inode` chooses a slot under `inode_table_mutex`, but writes the mode and the link count
that make it a used one only after it released the mutex. What keeps a second creation away from the
slot until then is the hint that searches start from: it is moved behind the slot, but the end of
the table and every `pmfs_free_inode` may move it back.
-/

namespace Wpmfs.Inode

/-- The fields of an inode that say if its slot is free. -/
structure PmfsInode where
  iLinksCount : ℕ
  iMode : ℕ
  iDtime : ℕ
deriving DecidableEq

/-- The test of `pmfs_new_inode`. -/
def PmfsInode.IsFree (pi : PmfsInode) : Prop :=
  pi.iLinksCount = 0 ∧ (pi.iMode = 0 ∨ pi.iDtime ≠ 0)

instance : DecidablePred PmfsInode.IsFree := fun _ => inferInstanceAs (Decidable (_ ∧ _))

/-- The inode table with its counters; the slots that were chosen for an inode that is not freed
since, and among them those that `pmfs_update_inode` is still to write. -/
structure Slots where
  table : ℕ → PmfsInode
  sInodesCount : ℕ
  sFreeInodesCount : ℕ
  sFreeInodeHint : ℕ
  chosen : List ℕ
  pending : List ℕ

def pmfsFreeInodeHintStart : ℕ := 3

/-- `INODES_PER_BLOCK` of a 4K block. -/
def inodesPerBlock : ℕ := 32

namespace Slots

/-- The loop over the rest of a block, of `n` slots. -/
def searchBlock (table : ℕ → PmfsInode) : (n i : ℕ) → ℕ
  | 0, i => i
  | n + 1, i => if (table i).IsFree then i else searchBlock table n (i + 1)

/-- The loop over the blocks. The inode number is computed in an `int`; from `2 ^ 24` on it is not
one of the table, and what `pmfs_get_inode` then returns is no pointer into it. -/
def search (table : ℕ → PmfsInode) (numInodes : ℕ) : (fuel i : ℕ) → Option ℕ
  | 0, i => some i
  | fuel + 1, i =>
    if i < numInodes then
      if 2 ^ 24 ≤ i then none
      else
        let n := inodesPerBlock - i % inodesPerBlock
        let j := searchBlock table n i
        if j < i + n then some j else search table numInodes fuel j
    else some i

/-- `pmfs_increase_inode_table_size` where it succeeds: a block of zeroes more. -/
def pmfsIncreaseInodeTableSize (s : Slots) : Slots :=
  { s with
    table := fun i =>
      if s.sInodesCount ≤ i ∧ i < s.sInodesCount + inodesPerBlock then ⟨0, 0, 0⟩ else s.table i
    sInodesCount := s.sInodesCount + inodesPerBlock
    sFreeInodesCount := (s.sFreeInodesCount + inodesPerBlock) % 2 ^ 32
    sFreeInodeHint := s.sInodesCount }

/-- From the label `retry` on, with up to `grows` blocks to be had: the free slot, or `none` if the
table cannot grow. The outer `none` is a bad pointer. -/
def findSlot : (grows i : ℕ) → Slots → Option (Option ℕ × Slots)
  | grows, i, s =>
    match search s.table s.sInodesCount (s.sInodesCount + 1) i with
    | none => none
    | some i =>
      if i < s.sInodesCount then some (some i, s)
      else
        match grows with
        | 0 => some (none, s)
        | grows + 1 => findSlot grows i s.pmfsIncreaseInodeTableSize

/-- `pmfs_new_inode` while it holds the mutex. -/
def choose (grows : ℕ) (s : Slots) : Option Slots :=
  match findSlot grows s.sFreeInodeHint s with
  | none => none
  | some (none, s) => some s
  | some (some i, s) => some { s with
      table := Function.update s.table i { s.table i with iDtime := 0 }
      sFreeInodesCount := (s.sFreeInodesCount + 2 ^ 32 - 1) % 2 ^ 32
      sFreeInodeHint := if i < s.sInodesCount - 1 then i + 1 else pmfsFreeInodeHintStart
      chosen := i :: s.chosen
      pending := i :: s.pending }

/-- `pmfs_update_inode` of a new inode. -/
def pmfsUpdateInode (i mode : ℕ) (s : Slots) : Slots :=
  { s with
    table := Function.update s.table i { s.table i with iMode := mode, iLinksCount := 1 }
    pending := s.pending.erase i }

/-- `pmfs_update_nlink`. -/
def pmfsUpdateNlink (i n : ℕ) (s : Slots) : Slots :=
  { s with table := Function.update s.table i { s.table i with iLinksCount := n } }

/-- `pmfs_free_inode` where its transaction starts. -/
def pmfsFreeInode (i seconds : ℕ) (s : Slots) : Slots :=
  let hint := if i < s.sFreeInodeHint then i else s.sFreeInodeHint
  let free := (s.sFreeInodesCount + 1) % 2 ^ 32
  { s with
    table := Function.update s.table i { s.table i with iDtime := seconds }
    sFreeInodesCount := free
    sFreeInodeHint :=
      if free + pmfsFreeInodeHintStart = s.sInodesCount then pmfsFreeInodeHintStart else hint
    chosen := s.chosen.erase i }

inductive Call where
  | choose (grows : ℕ)
  | updateInode (i mode : ℕ)
  | updateNlink (i n : ℕ)
  | freeInode (i seconds : ℕ)

def exec (s : Slots) : Call → Option Slots
  | .choose grows => s.choose grows
  | .updateInode i mode => some (s.pmfsUpdateInode i mode)
  | .updateNlink i n => some (s.pmfsUpdateNlink i n)
  | .freeInode i seconds => some (s.pmfsFreeInode i seconds)

/-- Only inodes in use are linked, unlinked and freed, and they are freed without links. -/
def Legal (s : Slots) : Call → Prop
  | .choose _ => True
  | .updateInode i mode => i ∈ s.pending ∧ mode ≠ 0
  | .updateNlink i _ => i ∈ s.chosen ∧ i ∉ s.pending
  | .freeInode i seconds =>
    i ∈ s.chosen ∧ i ∉ s.pending ∧ (s.table i).iLinksCount = 0 ∧ seconds ≠ 0

/-- A slot that is chosen but looks free is not the first such one from the hint on. -/
def Clear (s : Slots) : Prop :=
  ∀ p ∈ s.pending, (s.table p).IsFree → s.sFreeInodeHint ≤ p →
    ∃ k, s.sFreeInodeHint ≤ k ∧ k < p ∧ (s.table k).IsFree

def KeepsSlots (s : Slots) : Call → Prop
  | .choose _ => s.Clear
  | _ => True

inductive Step (ok : Slots → Call → Prop) (s s' : Slots) : Prop
  | mk (c : Call) (hlegal : s.Legal c) (hok : ok s c) (hexec : s.exec c = some s')

abbrev Reaches (ok : Slots → Call → Prop) : Slots → Slots → Prop := Relation.ReflTransGen (Step ok)

/-- No creation is under way, and the slots of all inodes are in the table and look used. -/
structure Settled (s : Slots) : Prop where
  pending : s.pending = []
  nodup : s.chosen.Nodup
  lt : ∀ i ∈ s.chosen, i < s.sInodesCount
  used : ∀ i ∈ s.chosen, (s.table i).iMode ≠ 0 ∧ (s.table i).iDtime = 0

/-! ## The search -/

variable {s s' : Slots} {table : ℕ → PmfsInode} {n i j numInodes fuel grows : ℕ} {c : Call}

theorem searchBlock_spec : i ≤ searchBlock table n i ∧ searchBlock table n i ≤ i + n ∧
    (∀ k, i ≤ k → k < searchBlock table n i → ¬(table k).IsFree) ∧
    (searchBlock table n i < i + n → (table (searchBlock table n i)).IsFree) := by
  induction n generalizing i with
  | zero =>
    rw [searchBlock]
    exact ⟨le_rfl, le_rfl, fun k hk hlt => absurd hlt (by omega), fun h => absurd h (by omega)⟩
  | succ n ih =>
    rw [searchBlock]
    split
    · rename_i hfree
      exact ⟨le_rfl, by omega, fun k hk hlt => absurd hlt (by omega), fun _ => hfree⟩
    · rename_i hused
      obtain ⟨hle, hend, hskip, hfound⟩ := @ih (i + 1)
      refine ⟨by omega, by omega, fun k hk hlt => ?_, fun hlt => hfound (by omega)⟩
      rcases Nat.eq_or_lt_of_le hk with rfl | hk
      · exact hused
      · exact hskip k hk hlt

/-- The search skips used slots, and stops at a free one or at the end. -/
theorem search_spec (hfuel : numInodes < fuel + i) (h : search table numInodes fuel i = some j) :
    i ≤ j ∧ (∀ k, i ≤ k → k < j → ¬(table k).IsFree) ∧ (j < numInodes → (table j).IsFree) := by
  induction fuel generalizing i with
  | zero =>
    obtain rfl := Option.some.inj h
    exact ⟨le_rfl, fun k hk hlt => absurd hlt (by omega), fun hlt => absurd hlt (by omega)⟩
  | succ fuel ih =>
    rw [search] at h
    split at h
    · split at h
      · cases h
      have hn : 0 < inodesPerBlock - i % inodesPerBlock := by
        unfold inodesPerBlock
        omega
      dsimp only at h
      generalize inodesPerBlock - i % inodesPerBlock = n at hn h
      obtain ⟨hle, hend, hskip, hfound⟩ := @searchBlock_spec table n i
      split at h
      · obtain rfl := Option.some.inj h
        exact ⟨hle, hskip, fun _ => hfound ‹_›⟩
      · obtain ⟨hle', hskip', hfound'⟩ := ih (by omega) h
        refine ⟨by omega, fun k hk hlt => ?_, hfound'⟩
        by_cases hblock : k < searchBlock table n i
        · exact hskip k hk hblock
        · exact hskip' k (by omega) hlt
    · obtain rfl := Option.some.inj h
      exact ⟨le_rfl, fun k hk hlt => absurd hlt (by omega), fun hlt => absurd hlt (by omega)⟩

/-- The table has grown, if anything. -/
structure Grown (s s' : Slots) : Prop where
  chosen : s'.chosen = s.chosen
  pending : s'.pending = s.pending
  le : s.sInodesCount ≤ s'.sInodesCount
  table : ∀ i < s.sInodesCount, s'.table i = s.table i

theorem Grown.refl (s : Slots) : s.Grown s := ⟨rfl, rfl, le_rfl, fun _ _ => rfl⟩

theorem grown_increase (s : Slots) : s.Grown s.pmfsIncreaseInodeTableSize := by
  refine ⟨rfl, rfl, Nat.le_add_right .., fun i hi => if_neg ?_⟩
  omega

theorem Grown.trans {s₁ s₂ : Slots} (h : s.Grown s₁) (h' : s₁.Grown s₂) : s.Grown s₂ :=
  ⟨h'.chosen.trans h.chosen, h'.pending.trans h.pending, Nat.le_trans h.le h'.le, fun i hi =>
    (h'.table i (Nat.lt_of_lt_of_le hi h.le)).trans (h.table i hi)⟩

/-- What the search of the slot can end with: below the old end of the table it is the first free
slot. -/
theorem findSlot_spec {r : Option ℕ} (h : findSlot grows i s = some (r, s')) :
    s.Grown s' ∧
      (r = none → ∀ k, i ≤ k → k < s.sInodesCount → ¬(s.table k).IsFree) ∧
      ∀ j, r = some j → i ≤ j ∧ j < s'.sInodesCount ∧
        ∀ k, i ≤ k → k < s.sInodesCount → (k < j → ¬(s.table k).IsFree) ∧
          (k = j → (s.table k).IsFree) := by
  fun_induction findSlot grows i s with
  | case1 => cases h
  | case2 grows i s j hsearch hlt =>
    obtain ⟨hle, hskip, hfound⟩ := search_spec (by omega) hsearch
    obtain ⟨rfl, rfl⟩ := Prod.mk.inj (Option.some.inj h)
    refine ⟨.refl s, nofun, ?_⟩
    rintro _ ⟨⟩
    exact ⟨hle, hlt, fun k hk _ => ⟨hskip k hk, fun hkj => hkj ▸ hfound hlt⟩⟩
  | case3 i s j hsearch hge =>
    obtain ⟨hle, hskip, -⟩ := search_spec (by omega) hsearch
    obtain ⟨rfl, rfl⟩ := Prod.mk.inj (Option.some.inj h)
    exact ⟨.refl s, fun _ k hk hlt => hskip k hk (by omega), nofun⟩
  | case4 i s j hsearch hge grows ih =>
    obtain ⟨hle, hskip, -⟩ := search_spec (by omega) hsearch
    obtain ⟨hgrown, -, hfound⟩ := ih h
    refine ⟨(grown_increase s).trans hgrown, fun _ k hk hlt => hskip k hk (by omega),
      fun l hl => ?_⟩
    obtain ⟨hjl, hlt, -⟩ := hfound l hl
    refine ⟨by omega, hlt, fun k hk hks => ⟨fun _ => hskip k hk (by omega), fun hkl => ?_⟩⟩
    omega

/-! ## The invariant -/

/-- Each slot is chosen for one inode, and looks used once its inode was written. -/
structure Sound (s : Slots) : Prop where
  nodup : s.chosen.Nodup
  pending : ∀ i ∈ s.pending, i ∈ s.chosen
  lt : ∀ i ∈ s.chosen, i < s.sInodesCount
  dtime : ∀ i ∈ s.chosen, (s.table i).iDtime = 0
  mode : ∀ i ∈ s.chosen, i ∉ s.pending → (s.table i).iMode ≠ 0

theorem Settled.sound (h : s.Settled) : s.Sound :=
  ⟨h.nodup, by simp [h.pending], h.lt, fun i hi => (h.used i hi).2, fun i hi _ => (h.used i hi).1⟩

theorem Sound.grown (h : s.Sound) (hgrown : s.Grown s') : s'.Sound := by
  obtain ⟨hchosen, hpending, hle, htable⟩ := hgrown
  refine ⟨hchosen ▸ h.nodup, ?_, ?_, ?_, ?_⟩
  · rw [hchosen, hpending]
    exact h.pending
  · rw [hchosen]
    exact fun i hi => Nat.lt_of_lt_of_le (h.lt i hi) hle
  · rw [hchosen]
    exact fun i hi => (htable i (h.lt i hi)).symm ▸ h.dtime i hi
  · rw [hchosen, hpending]
    exact fun i hi hp => (htable i (h.lt i hi)).symm ▸ h.mode i hi hp

/-- A slot that is chosen looks used unless it is still to be written. -/
theorem Sound.pending_of_free (h : s.Sound) (hi : i ∈ s.chosen) (hfree : (s.table i).IsFree) :
    i ∈ s.pending := by
  by_contra hp
  exact hfree.2.elim (h.mode i hi hp) (· (h.dtime i hi))

/-- A choice finds no slot at all, or the first one that looks free. -/
theorem choose_cases (h : s.choose grows = some s') :
    s.Grown s' ∧ (∀ k, s.sFreeInodeHint ≤ k → k < s.sInodesCount → ¬(s.table k).IsFree) ∨
    ∃ i s₁, s.Grown s₁ ∧ s'.chosen = i :: s.chosen ∧ s'.pending = i :: s.pending ∧
      s'.table = Function.update s₁.table i { s₁.table i with iDtime := 0 } ∧
      s'.sInodesCount = s₁.sInodesCount ∧ s.sFreeInodeHint ≤ i ∧ i < s₁.sInodesCount ∧
      ∀ k, s.sFreeInodeHint ≤ k → k < s.sInodesCount →
        (k < i → ¬(s.table k).IsFree) ∧ (k = i → (s.table k).IsFree) := by
  rw [choose] at h
  split at h
  · cases h
  · rename_i s₁ hfind
    obtain rfl := Option.some.inj h
    obtain ⟨hgrown, hnone, -⟩ := findSlot_spec hfind
    exact .inl ⟨hgrown, hnone rfl⟩
  · rename_i i s₁ hfind
    obtain rfl := Option.some.inj h
    obtain ⟨hgrown, -, hfound⟩ := findSlot_spec hfind
    obtain ⟨hle, hlt, hfirst⟩ := hfound i rfl
    exact .inr ⟨i, s₁, hgrown, by rw [hgrown.chosen], by rw [hgrown.pending], rfl, rfl, hle, hlt,
      hfirst⟩

/-- A choice takes a slot a second time exactly if the first slot that looks free is chosen. -/
theorem Sound.choose_nodup_iff (h : s.Sound) (hchoose : s.choose grows = some s') :
    s'.chosen.Nodup ↔ s.Clear := by
  rcases choose_cases hchoose with ⟨hgrown, hnone⟩ | ⟨i, s₁, -, hchosen, -, -, -, hle, -, hfirst⟩
  · refine ⟨fun _ p hp hfree hhint => ?_, fun _ => hgrown.chosen ▸ h.nodup⟩
    exact absurd hfree (hnone p hhint (h.lt p (h.pending p hp)))
  rw [hchosen, List.nodup_cons, and_iff_left h.nodup]
  constructor
  · intro hout p hp hfree hhint
    have hmem := h.pending p hp
    obtain ⟨hbefore, -⟩ := hfirst p hhint (h.lt p hmem)
    -- the slot that the search found lies before `p`
    have hip : i < p := by
      refine Nat.lt_of_le_of_ne ?_ fun hip => hout (hip ▸ hmem)
      exact Nat.le_of_not_lt fun hlt => hbefore hlt hfree
    have hi := h.lt p hmem
    exact ⟨i, hle, hip, (hfirst i hle (by omega)).2 rfl⟩
  · intro hclear hmem
    have hfree := (hfirst i hle (h.lt i hmem)).2 rfl
    obtain ⟨k, hk, hki, hkfree⟩ := hclear i (h.pending_of_free hmem hfree) hfree hle
    have hi := h.lt i hmem
    exact (hfirst k hk (by omega)).1 hki hkfree

theorem Sound.choose (h : s.Sound) (hclear : s.Clear) (hchoose : s.choose grows = some s') :
    s'.Sound := by
  have hnodup := (h.choose_nodup_iff hchoose).mpr hclear
  rcases choose_cases hchoose with
    ⟨hgrown, -⟩ | ⟨i, s₁, hgrown, hchosen, hpending, htable, hcount, -, hlt, -⟩
  · exact h.grown hgrown
  have h₁ := h.grown hgrown
  rw [hchosen, List.nodup_cons] at hnodup
  refine ⟨?_, ?_, ?_, ?_, ?_⟩ <;> rw [hchosen]
  · exact List.nodup_cons.mpr hnodup
  · rw [hpending]
    exact List.forall_mem_cons.mpr ⟨List.mem_cons_self .., fun j hj =>
      List.mem_cons_of_mem _ (h.pending j hj)⟩
  · rw [hcount]
    exact List.forall_mem_cons.mpr ⟨hlt, hgrown.chosen ▸ h₁.lt⟩
  · rw [htable]
    refine List.forall_mem_cons.mpr ⟨by simp, fun j hj => ?_⟩
    rw [Function.update_of_ne (ne_of_mem_of_not_mem hj hnodup.1)]
    exact h₁.dtime j (hgrown.chosen ▸ hj)
  · rw [htable, hpending]
    refine List.forall_mem_cons.mpr ⟨by simp, fun j hj hp => ?_⟩
    rw [Function.update_of_ne (ne_of_mem_of_not_mem hj hnodup.1)]
    rw [List.mem_cons, not_or] at hp
    exact h₁.mode j (hgrown.chosen ▸ hj) (hgrown.pending ▸ hp.2)

theorem Sound.step (h : s.Sound) (hlegal : s.Legal c) (hok : s.KeepsSlots c)
    (hexec : s.exec c = some s') : s'.Sound := by
  cases c with
  | choose grows => exact h.choose hok hexec
  | updateInode i mode =>
    obtain rfl := Option.some.inj hexec
    refine ⟨h.nodup, fun j hj => h.pending j (List.mem_of_mem_erase hj), h.lt, fun j hj => ?_,
      fun j hj hp => ?_⟩
    · by_cases hji : j = i
      · simpa [pmfsUpdateInode, hji] using h.dtime i (hji ▸ hj)
      · simpa [pmfsUpdateInode, hji] using h.dtime j hj
    · by_cases hji : j = i
      · simpa [pmfsUpdateInode, hji] using hlegal.2
      · have hp' : j ∉ s.pending := fun hmem => hp ((List.mem_erase_of_ne hji).mpr hmem)
        simpa [pmfsUpdateInode, hji] using h.mode j hj hp'
  | updateNlink i n =>
    obtain rfl := Option.some.inj hexec
    refine ⟨h.nodup, h.pending, h.lt, fun j hj => ?_, fun j hj hp => ?_⟩
    · by_cases hji : j = i
      · simpa [pmfsUpdateNlink, hji] using h.dtime i (hji ▸ hj)
      · simpa [pmfsUpdateNlink, hji] using h.dtime j hj
    · by_cases hji : j = i
      · simpa [pmfsUpdateNlink, hji] using h.mode i (hji ▸ hj) (hji ▸ hp)
      · simpa [pmfsUpdateNlink, hji] using h.mode j hj hp
  | freeInode i seconds =>
    obtain rfl := Option.some.inj hexec
    have hother : ∀ j ∈ s.chosen.erase i, j ≠ i ∧ j ∈ s.chosen := fun j hj =>
      h.nodup.mem_erase_iff.mp hj
    refine ⟨h.nodup.erase i, fun j hj => ?_, fun j hj => h.lt j (hother j hj).2, fun j hj => ?_,
      fun j hj hp => ?_⟩
    · have hji : j ≠ i := ne_of_mem_of_not_mem hj hlegal.2.1
      exact (List.mem_erase_of_ne hji).mpr (h.pending j hj)
    · obtain ⟨hji, hmem⟩ := hother j hj
      simpa [pmfsFreeInode, hji] using h.dtime j hmem
    · obtain ⟨hji, hmem⟩ := hother j hj
      simpa [pmfsFreeInode, hji] using h.mode j hmem hp

theorem Sound.reaches (h : s.Sound) (hrun : Reaches KeepsSlots s s') : s'.Sound := by
  induction hrun with
  | refl => exact h
  | tail _ hstep ih =>
    obtain ⟨c, hlegal, hok, hexec⟩ := hstep
    exact ih.step hlegal hok hexec

/-- No slot is chosen again as long as each choice is made on a clear table, and a choice on
another table chooses one again. -/
theorem Reaches.chosenOnce (hsettled : s.Settled) (hrun : Reaches KeepsSlots s s') :
    s'.chosen.Nodup ∧ ∀ grows t, s'.choose grows = some t → (t.chosen.Nodup ↔ s'.Clear) :=
  have hsound := hsettled.sound.reaches hrun
  ⟨hsound.nodup, fun _ _ hchoose => hsound.choose_nodup_iff hchoose⟩

/-- A table of one block with the slots from `used` on never used. -/
def oneBlock (used : ℕ) : Slots where
  table i := if 0 < i ∧ i < used then ⟨1, 0x81a4, 0⟩ else ⟨0, 0, 0⟩
  sInodesCount := 32
  sFreeInodesCount := 32 - used
  sFreeInodeHint := used
  chosen := List.range' 1 (used - 1)
  pending := []

theorem settled_oneBlock {used : ℕ} (hused : used < 32) : (oneBlock used).Settled := by
  have hmem : ∀ i ∈ (oneBlock used).chosen, 0 < i ∧ i < used := by
    intro i hi
    have := List.mem_range'_1.mp hi
    omega
  refine ⟨rfl, List.nodup_range' .., fun i hi => ?_, fun i hi => ?_⟩
  · exact Nat.lt_trans (hmem i hi).2 hused
  · have hslot : (oneBlock used).table i = ⟨1, 0x81a4, 0⟩ := if_pos (hmem i hi)
    rw [hslot]
    exact ⟨by decide, rfl⟩

/-- The table after a creation that has not written its slot yet. -/
def half (used : ℕ) : Slots := ((oneBlock used).choose 0).getD (oneBlock used)

theorem reaches_half {ok : Slots → Call → Prop} {used : ℕ} (hok : ok (oneBlock used) (.choose 0))
    (hchoose : (oneBlock used).choose 0 = some (half used)) :
    Reaches ok (oneBlock used) (half used) :=
  .single ⟨.choose 0, trivial, hok, hchoose⟩

theorem chosenOnce_half : Reaches KeepsSlots (oneBlock 3) (half 3) ∧ (half 3).chosen.Nodup := by
  have hrun : Reaches KeepsSlots (oneBlock 3) (half 3) := by
    refine reaches_half ?_ rfl
    rintro p ⟨⟩
  exact ⟨hrun, (Reaches.chosenOnce (settled_oneBlock (by decide)) hrun).1⟩

/-- Two creations at the end of the table: the first one takes the last slot and moves the hint to
the start, and the second one finds only that slot. -/
theorem chosenTwice : ∃ s, (oneBlock 31).Settled ∧ Reaches (fun _ _ => True) (oneBlock 31) s ∧
    s.chosen.take 2 = [31, 31] ∧ ¬s.chosen.Nodup := by
  have hrun : Reaches (fun _ _ => True) (oneBlock 31) (half 31) := reaches_half trivial rfl
  refine ⟨((half 31).choose 0).getD (oneBlock 31), settled_oneBlock (by decide),
    hrun.tail ⟨.choose 0, trivial, trivial, rfl⟩, rfl, ?_⟩
  decide

end Slots

end Wpmfs.Inode
