import Wpmfs.Vmap.Growth

/-!
# The dynamic table after a crash

The pages of the inode table are linked into it before `num_pages` counts them, and the flush after
the store to a slot is of another address. From the first block that the inode table gets, on the
point before `num_pages` is stored is one at which it cannot be read again after a crash.
-/

namespace Wpmfs.Vmap

open Balloc
open File (Env)

variable {st st' : TableState} {o : Env} {t : Tables} {n num k : ℕ} {sb : Sb}

namespace TableState

/-- The inode table can be read at the next mount: each pointer of it has a slot that counts, and
what is persistent of the slot is the block. -/
def Survives (st : TableState) : Prop := ∀ p ∈ st.table.root.entries,
  st.tables.sb.pageIndex p.2 < st.numPages ∧
    (st.tables.sb.area .dynamic).flushed (st.tables.sb.pageIndex p.2) = p.2

/-- Where the machine can stop in a growth: with the transaction undone, after its commit, and when
`num_pages` is stored. -/
def growPoints (o : Env) (st : TableState) : List TableState :=
  match st.growTable o with
  | none => []
  | some st' => [{ st' with table := st.table }, st', st'.wpmfsConfirmMptableDynamic]

/-- Where it can stop in calls of `pmfs_increase_inode_table_size`. -/
def runPoints : List Env → TableState → List TableState
  | [], _ => []
  | o :: os, st =>
    st.growPoints o ++
      match st.pmfsIncreaseInodeTableSize o with
      | none => []
      | some st' => runPoints os st'

/-- Where it can stop in `pmfs_init_inode_table` and the calls that follow: before that there is an
empty table. -/
def crashPoints (numInodes : UInt64) (o : Env) (os : List Env) (t : Tables) : List TableState :=
  match initTable numInodes o t with
  | none => []
  | some (some _, st) => [st]
  | some (none, st) =>
    st :: st.wpmfsConfirmMptableDynamic ::
      runPoints os { st.wpmfsConfirmMptableDynamic with mounted := true }

/-- The first block that the inode table asks for is refused, or it asks for none. -/
def RefusedAtOnce (numInodes : UInt64) (o : Env) : Prop :=
  let num := initBlocks numInodes % 2 ^ 32
  num = 0 ∨ 512 ^ 3 < num ∨ ∃ e, (if num = 1 then o.data 0 else o.node 0) = .error e

/-! ## The first block -/

/-- A new table gets no block exactly if its first request is refused, and then it is not made. -/
theorem exists_pmfsAllocBlocks_empty (size : ℕ) (o : Env) (hpos : 0 < num)
    (hnum : num ≤ 512 ^ 3) :
    ∃ err f o', File.pmfsAllocBlocks ⟨0, .null, size, 0, false, 0⟩ 0 num true o =
        some (err, f, o') ∧ (f.root.entries = 0 → err ≠ none) ∧
      (f.root.entries = 0 ↔ ∃ e, (if num = 1 then o.data 0 else o.node 0) = .error e) := by
  have hheight : File.heightFor 0 (0 + num - 1) ≤ 3 :=
    File.heightFor_le_iff.mpr ⟨Nat.zero_le _, by omega⟩
  rw [File.pmfsAllocBlocks]
  dsimp only
  rw [if_neg fun h => absurd h.2 (Nat.not_lt.mpr hheight)]
  by_cases hone : num = 1
  · have hzero : File.heightFor 0 (0 + num - 1) = 0 :=
      Nat.le_zero.mp (File.heightFor_le_iff.mpr ⟨le_rfl, by omega⟩)
    have hnull : (File.Slot.null : File.Slot 0).isNull = true := rfl
    rw [if_pos hzero, if_pos hone, File.allocRoot, if_pos hnull, File.Heap.pmfsNewDataBlock]
    dsimp only [File.heap]
    cases o.data 0 with
    | error e => exact ⟨_, _, _, rfl, fun _ => Option.some_ne_none e, by simp [File.setTree]⟩
    | ok b => exact ⟨_, _, _, rfl, by simp [File.setTree, File.Slot.entries]⟩
  · have hlevels : File.heightFor 0 (0 + num - 1) ≠ 0 := by
      intro hzero
      have := (File.heightFor_le_iff.mp hzero.le).2
      omega
    obtain ⟨levels, hlevels⟩ := Nat.exists_eq_succ_of_ne_zero hlevels
    rw [hlevels, if_neg (Nat.succ_ne_zero levels), if_neg hone, Nat.sub_zero,
      File.pmfsIncreaseBtreeHeight, File.Heap.pmfsNewBlock]
    dsimp only [File.heap]
    cases o.node 0 with
    | error e => exact ⟨_, _, _, rfl, fun _ => Option.some_ne_none e, by simp [File.setTree]⟩
    | ok b =>
      dsimp only
      have hraised := File.pmfsIncreaseBtreeHeight_raised (n := levels) true
        (.page b fun i => if i = 0 then (.null : File.Slot 0) else .null)
        ⟨⟨o.data, fun n => o.node (n + 1), (0 + 1, b) :: o.got, o.mem⟩, 0, false⟩
      revert hraised
      generalize File.pmfsIncreaseBtreeHeight levels (0 + 1) _ _ = r
      intro hraised
      obtain ⟨err, ⟨m, u⟩, heap⟩ := r
      have hne : u.entries ≠ 0 := by
        cases u with
        | null => exact absurd (hraised.null rfl).2 Bool.false_ne_true
        | data c => exact Multiset.singleton_ne_zero _
        | page c node => exact Multiset.cons_ne_zero
      cases err with
      | some e => exact ⟨_, _, _, rfl, fun h => absurd h hne, fun h => absurd h hne, by simp⟩
      | none =>
        have hm := hraised.height_eq rfl
        cases u with
        | null => exact absurd rfl hne
        | data c =>
          dsimp only at hm
          omega
        | page c node => exact ⟨_, _, _, rfl, by simp [File.setTree, File.Slot.entries]⟩

theorem exists_initTable (numInodes : UInt64) (o : Env) (t : Tables) :
    ∃ err st, initTable numInodes o t = some (err, st) ∧ st.numPages = 0 ∧
      (st.table.root.entries = 0 → err ≠ none) ∧
      (st.table.root.entries = 0 ↔ RefusedAtOnce numInodes o) := by
  rw [initTable, RefusedAtOnce]
  generalize initBlocks numInodes = numBlocks
  by_cases hzero : numBlocks % 2 ^ 32 = 0
  · rw [if_pos hzero]
    exact ⟨_, _, rfl, rfl, fun _ => Option.some_ne_none _, iff_of_true rfl (.inl hzero)⟩
  rw [if_neg hzero, allocBlocks]
  by_cases hbig : 512 ^ 3 < numBlocks % 2 ^ 32
  · have hheight : 3 < File.heightFor 0 (0 + numBlocks % 2 ^ 32 - 1) := by
      by_contra hle
      have := (File.heightFor_le_iff.mp (Nat.not_lt.mp hle)).2
      omega
    have hlast : 512 ^ 0 - 1 < 0 + numBlocks % 2 ^ 32 - 1 := by omega
    rw [File.pmfsAllocBlocks, if_pos ⟨hlast, hheight⟩]
    exact ⟨_, _, rfl, rfl, fun _ => Option.some_ne_none _, iff_of_true rfl (.inr (.inl hbig))⟩
  · obtain ⟨err, f, o', hrun, herr, hiff⟩ := exists_pmfsAllocBlocks_empty (numBlocks * 4096)
      { o with got := [] } (Nat.pos_of_ne_zero hzero) (Nat.not_lt.mp hbig)
    rw [hrun]
    refine ⟨_, _, rfl, rfl, herr, hiff.trans ?_⟩
    simp only [hzero, hbig, false_or]

/-- While no page counts, the table can be read only if it is empty. -/
theorem survives_iff (hnum : st.numPages = 0) : st.Survives ↔ st.table.root.entries = 0 := by
  constructor
  · intro h
    refine Multiset.eq_zero_of_forall_notMem fun p hp => ?_
    have hlt := (h p hp).1
    omega
  · intro h p hp
    rw [h] at hp
    exact absurd hp (Multiset.notMem_zero p)

/-- A page that is mapped gets a slot that is not in use. -/
theorem le_pageIndex {bs : List ℕ} {b : ℕ} (hk : k ≤ (t.sb.area .dynamic).pages)
    (hb : b ∈ bs ∨ k ≤ t.sb.pageIndex b) : k ≤ (t.mapDynamicPages bs).1.sb.pageIndex b := by
  induction bs generalizing t with
  | nil => exact hb.resolve_left (List.not_mem_nil)
  | cons c bs ih =>
    have hindex : (t.wpmfsMapDynamicPage c).sb.pageIndex b =
        if b = c then (t.sb.area .dynamic).pages else t.sb.pageIndex b := Function.update_apply ..
    refine ih (hk.trans (Nat.le_succ _)) ?_
    rw [hindex]
    rcases hb with hb | hb
    · rcases List.mem_cons.mp hb with rfl | hb
      · exact .inr (by rwa [if_pos rfl])
      · exact .inl hb
    · right
      split
      · exact hk
      · exact hb

/-- After the commit of a growth the table can be read only if it got no block. -/
theorem entries_growTable (hnum : st.numPages ≤ st.slots)
    (hnull : st.table.root.isNull = true → st.table.height = 0)
    (hgrow : st.growTable o = some st') (hsurvives : st'.Survives) :
    st'.table.root.entries = st.table.root.entries := by
  have hsame := growTable_numPages hgrow
  obtain ⟨err, s, n, halloc, rfl⟩ := growTable_alloc hgrow
  obtain ⟨⟨e, table, o'⟩, hrun, heq⟩ := Option.map_eq_some_iff.mp halloc
  obtain ⟨rfl, rfl⟩ := Prod.mk.inj heq
  rcases File.pmfsAllocBlocks_cases _ true { o with got := [] } hnull Nat.one_pos with
    hfull | ⟨r, hr, hadded, -⟩
  · rw [hfull] at hrun
    cases hrun
    rfl
  · rw [hr] at hrun
    cases hrun
    have hentries : (st.table.setTree r.2.1 r.2.2).root.entries =
        st.table.root.entries + (r.2.2.got : Multiset _) := by
      simpa [File.heap, File.setTree] using hadded.entries
    cases hgot : r.2.2.got with
    | nil =>
      rw [hgot] at hentries
      exact hentries.trans (Multiset.add_zero _)
    | cons p got =>
      have hp : p ∈ r.2.2.got := hgot ▸ List.mem_cons_self ..
      have hlt := (hsurvives p (hentries ▸ Multiset.mem_add.mpr (.inr hp))).1
      have hle := le_pageIndex (t := st.tables) (b := p.2) le_rfl
        (.inl (List.mem_map_of_mem (f := Prod.snd) (List.mem_reverse.mpr hp)))
      exact absurd (hlt.trans_le hnum) (Nat.not_lt.mpr hle)

/-- The inode table can be read after a crash at any point, of the setup and of all growth after it,
exactly if it never gets a block. Whatever the setup left, it cannot be read after the commit of a
growth that got one. -/
theorem survive_iff_refusedAtOnce (numInodes : UInt64) (o : Env) (os : List Env) (t : Tables) :
    ((∀ st ∈ crashPoints numInodes o os t, st.Survives) ↔ RefusedAtOnce numInodes o) ∧
      ∀ (o : Env) (st st' : TableState), st.numPages ≤ st.slots →
        (st.table.root.isNull = true → st.table.height = 0) →
        st.growTable o = some st' → st'.Survives →
        st'.table.root.entries = st.table.root.entries := by
  refine ⟨?_, fun o st st' => entries_growTable⟩
  obtain ⟨err, st, hinit, hnum, herr, hiff⟩ := exists_initTable numInodes o t
  rw [← hiff, ← survives_iff hnum, crashPoints, hinit]
  cases err with
  | some e => simp
  | none =>
    refine ⟨fun h => h st (List.mem_cons_self ..), fun h => ?_⟩
    exact absurd rfl (herr ((survives_iff hnum).mp h))

/-- The root of a new inode table is its first block, while the table head still says 0. -/
theorem not_survives : ¬∀ st ∈ crashPoints 0 (freeBlocks 28) [] (space.format false 4 Sb.blank),
    st.Survives := by
  intro h
  obtain ⟨err, st, hinit, hnum, -, hiff⟩ :=
    exists_initTable 0 (freeBlocks 28) (space.format false 4 Sb.blank)
  have hin : st ∈ crashPoints 0 (freeBlocks 28) [] (space.format false 4 Sb.blank) := by
    rw [crashPoints, hinit]
    cases err <;> simp
  have hrefused := hiff.mp ((survives_iff hnum).mp (h st hin))
  have hblocks : initBlocks 0 % 2 ^ 32 = 1 := by decide
  rw [RefusedAtOnce, hblocks] at hrefused
  rcases hrefused with hzero | hbig | ⟨e, he⟩
  · cases hzero
  · exact absurd hbig (by decide)
  · cases he

end TableState

end Wpmfs.Vmap
