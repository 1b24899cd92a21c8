import Wpmfs.File.Count
import Wpmfs.Vmap.Encoding

/-!
# The slots that the inode table takes

All pages of the inode table, those of inodes and those of pointers, are mapped in the dynamic area,
and none is ever unmapped: each block that the tree gets takes the next slot of the dynamic mapping
table. That table has ten pages whatever the size of the inode table is. They are enough for an
inode table of 5109 blocks, and for none that is longer.
-/

namespace Wpmfs.Vmap

open Balloc
open File (Env)

/-- The blocks of a list are mapped one after the other; the slots that are written. -/
def Tables.mapDynamicPages : List ℕ → Tables → Tables × List ℕ
  | [], t => (t, [])
  | b :: bs, t =>
    let r := mapDynamicPages bs (t.wpmfsMapDynamicPage b)
    (r.1, (t.sb.area .dynamic).pages :: r.2)

/-- `recv_vmap_dynamic` before its second loop. -/
def Tables.resetDynamic (t : Tables) : Tables :=
  let a := t.sb.area .dynamic
  let sb := t.sb.setArea .dynamic { a with pte := fun _ => none, pages := 0 }
  let mark := fun (a : Factory) curPage => a.markPage (t.headBlocknr + curPage) .inUse
  { t with sb := { sb with alloc := (List.range 10).foldl mark sb.alloc } }

/-- The second loop, with `num_pages` rounds, and the slots that it writes. -/
def Tables.recvSlots : (numPages : ℕ) → Tables → Tables × List ℕ
  | 0, t => (t, [])
  | curPage + 1, t =>
    let r := recvSlots curPage t
    (r.1.wpmfsMapDynamicPage (r.1.mptable curPage), r.2 ++ [(r.1.sb.area .dynamic).pages])

def Tables.recvVmapDynamic (numPages : ℕ) (t : Tables) : Tables × List ℕ :=
  t.resetDynamic.recvSlots numPages

/-- The file system as far as its dynamic area goes, with `mptable_dynamic.num_pages`, the inode of
the inode table, and the slots that have been written since the format. A pointer of the inode table
is named by the block behind the page that it leads to. -/
structure TableState where
  tables : Tables
  numPages : ℕ
  table : File
  mounted : Bool
  written : List ℕ

/-- `num_blocks` of `pmfs_init_inode_table`, as an `unsigned long`. -/
def initBlocks (numInodes : UInt64) : ℕ :=
  let initInodeTableSize := if numInodes = 0 then 4096 else numInodes.toNat * 128 % 2 ^ 64
  (initInodeTableSize + 4095) % 2 ^ 64 / 4096

namespace TableState

/-- `size_dynamic >> PAGE_SHIFT`. -/
def slots (st : TableState) : ℕ := (st.tables.sb.area .dynamic).pages

/-- `__pmfs_alloc_blocks` for the inode table: what the allocator gives is mapped. -/
def allocBlocks (o : Env) (blocknr num : ℕ) (st : TableState) :
    Option (Option File.Error × TableState) :=
  (File.pmfsAllocBlocks st.table blocknr num true { o with got := [] }).map fun (err, table, o') =>
    let r := st.tables.mapDynamicPages (o'.got.reverse.map Prod.snd)
    (err, { st with tables := r.1, table := table, written := st.written ++ r.2 })

/-- `wpmfs_confirm_mptable_dynamic`. -/
def wpmfsConfirmMptableDynamic (st : TableState) : TableState := { st with numPages := st.slots }

/-- `pmfs_init_inode_table` up to its last call of `__pmfs_alloc_blocks`. -/
def initTable (numInodes : UInt64) (o : Env) (t : Tables) :
    Option (Option File.Error × TableState) :=
  let numBlocks := initBlocks numInodes
  let num := numBlocks % 2 ^ 32
  let st : TableState := ⟨t, 0, ⟨0, .null, numBlocks * 4096, 0, false, 0⟩, false, []⟩
  -- the last block is 2^64 - 1 where `num` is 0
  if num = 0 then some (some .enospc, st) else st.allocBlocks o 0 num

/-- `pmfs_init_inode_table`, and then the file system is mounted. -/
def pmfsInitInodeTable (numInodes : UInt64) (o : Env) (t : Tables) : Option TableState :=
  (initTable numInodes o t).map fun (err, st) =>
    if err = none then { st.wpmfsConfirmMptableDynamic with mounted := true } else st

/-- `pmfs_increase_inode_table_size` up to the commit. -/
def growTable (o : Env) (st : TableState) : Option TableState :=
  (st.allocBlocks o (st.table.iSize / 4096) 1).map fun (err, st) =>
    if err = none then
      { st with table := { st.table with iSize := (st.table.iSize + 4096) % 2 ^ 64 } }
    else st

def pmfsIncreaseInodeTableSize (o : Env) (st : TableState) : Option TableState :=
  (st.growTable o).map wpmfsConfirmMptableDynamic

/-- The next mount. Of memory and the page structures only the table head is known. -/
def mount (sb : Sb) (st : TableState) : TableState :=
  let r := Tables.recvVmapDynamic st.numPages ⟨sb, st.tables.headBlocknr⟩
  { st with tables := r.1, written := st.written ++ r.2 }

/-- The inode table grows, or the machine stops before the new size of the dynamic area is stored,
with the transaction committed or undone, or there is a mount. -/
inductive Step (ok : TableState → Prop) (st : TableState) : TableState → Prop
  | grow (o : Env) {st' : TableState} (hok : ok st)
      (hgrow : st.pmfsIncreaseInodeTableSize o = some st') : Step ok st st'
  | crash (o : Env) {st' : TableState} (committed : Bool) (sb : Sb) (hok : ok st)
      (hgrow : st.growTable o = some st') :
      Step ok st (({ st' with table := if committed then st'.table else st.table }).mount sb)
  | remount (sb : Sb) : Step ok st (st.mount sb)

/-- What a new file system comes to. There are no steps where its inode table could not be made. -/
inductive Reaches (ok : TableState → Prop) (st : TableState) : TableState → Prop
  | refl : Reaches ok st st
  | tail {s t : TableState} (hrun : Reaches ok st s) (hmounted : s.mounted = true)
      (hstep : Step ok s t) : Reaches ok st t

/-- The slots are in the ten blocks of the table, those in use and all that have been written. -/
structure Fits (st : TableState) : Prop where
  slots : st.slots ≤ dynamicSlots
  written : ∀ k ∈ st.written, st.tables.IsTable (st.tables.headBlocknr + k / 512)

/-- The table has room for one more block. -/
def HasRoom (st : TableState) : Prop := st.table.iSize / 4096 < 5109

end TableState

variable {t t' : Tables} {st st' s : TableState} {o : Env} {err : Option File.Error}
  {b k n num blocknr : ℕ} {bs : List ℕ} {sb : Sb} {ok : TableState → Prop}

/-! ## Slots in order -/

namespace Tables

@[simp] theorem wpmfsMapDynamicPage_pages :
    ((t.wpmfsMapDynamicPage b).sb.area .dynamic).pages = (t.sb.area .dynamic).pages + 1 := rfl

@[simp] theorem wpmfsMapDynamicPage_headBlocknr :
    (t.wpmfsMapDynamicPage b).headBlocknr = t.headBlocknr := rfl

/-- Pages that are mapped take the next slots. -/
theorem mapDynamicPages_spec (bs : List ℕ) (t : Tables) :
    ((t.mapDynamicPages bs).1.sb.area .dynamic).pages = (t.sb.area .dynamic).pages + bs.length ∧
      (t.mapDynamicPages bs).1.headBlocknr = t.headBlocknr ∧
      (t.mapDynamicPages bs).2 = List.range' (t.sb.area .dynamic).pages bs.length := by
  induction bs generalizing t with
  | nil => exact ⟨rfl, rfl, rfl⟩
  | cons b bs ih =>
    obtain ⟨hpages, hhead, hwritten⟩ := ih (t.wpmfsMapDynamicPage b)
    rw [wpmfsMapDynamicPage_pages] at hpages hwritten
    refine ⟨?_, hhead, ?_⟩
    · rw [mapDynamicPages, hpages, List.length_cons]
      omega
    · rw [mapDynamicPages, hwritten, List.length_cons, List.range'_succ]

/-- A mount maps the pages of the first `num_pages` slots, and writes these slots. -/
theorem recvVmapDynamic_spec (n : ℕ) (t : Tables) :
    ((t.recvVmapDynamic n).1.sb.area .dynamic).pages = n ∧
      (t.recvVmapDynamic n).1.headBlocknr = t.headBlocknr ∧
      (t.recvVmapDynamic n).2 = List.range n := by
  rw [recvVmapDynamic]
  induction n with
  | zero =>
    refine ⟨?_, rfl, rfl⟩
    simp [recvSlots, resetDynamic, Sb.setArea]
  | succ n ih =>
    obtain ⟨hpages, hhead, hwritten⟩ := ih
    refine ⟨congrArg (· + 1) hpages, hhead, ?_⟩
    rw [recvSlots, List.range_succ, hwritten, hpages]

end Tables

/-! ## The inode table -/

namespace TableState

/-- What a run keeps: the inode table ends by the block 5108, and there are no more slots than
pointers in it. -/
structure Inv (st : TableState) : Prop where
  null : st.table.root.isNull = true → st.table.height = 0
  height : st.table.height ≤ 2
  ends : st.table.EndsBy 5108
  slots : st.slots ≤ st.table.root.entries.card
  numPages : st.numPages ≤ st.table.root.entries.card
  written : ∀ k ∈ st.written, k < dynamicSlots

/-- There are 5109 blocks of inodes at most, with 10 pages of pointers to them, and one to those. -/
theorem Inv.card_le (h : st.Inv) : st.table.root.entries.card ≤ dynamicSlots := by
  refine h.ends.card_le.trans ?_
  have hfull : File.fullCount 2 5108 = dynamicSlots := rfl
  rw [← hfull]
  exact Finset.sum_le_sum_of_subset (Finset.range_subset_range.mpr (Nat.succ_le_succ h.height))

theorem Inv.fits (h : st.Inv) : st.Fits := by
  refine ⟨h.slots.trans h.card_le, fun k hk => ?_⟩
  have hlt := h.written k hk
  rw [dynamicSlots] at hlt
  exact ⟨Nat.le_add_right .., by omega⟩

/-- What an allocation below the block 5109 adds to the tree stays below it. -/
theorem endsBy_setTree {f : File} {heap : File.Heap}
    {r : Option File.Error × ((h : ℕ) × File.Slot h) × File.Heap} {first last : ℕ}
    (hadded : File.Added ⟨f.height, f.root⟩ first last true heap r) (hends : f.EndsBy n)
    (hlast : last ≤ n) : (f.setTree r.2.1 r.2.2).EndsBy n := by
  intro l k hptr
  by_cases hold : f.ptr l k = none
  · rcases hadded.meets l k hold hptr with ⟨-, hk⟩ | hmeets
    · rw [Nat.div_eq_of_lt hk]
      exact Nat.zero_le _
    · exact hmeets.2.trans (Nat.div_le_div_right hlast)
  · exact hends l k hold

theorem Inv.allocBlocks (h : st.Inv) (hnum : 0 < num) (hlast : blocknr + num - 1 ≤ 5108)
    (halloc : st.allocBlocks o blocknr num = some (err, st')) :
    st'.Inv ∧ st.table.root.entries.card ≤ st'.table.root.entries.card := by
  obtain ⟨⟨e, table, o'⟩, hrun, heq⟩ := Option.map_eq_some_iff.mp halloc
  obtain ⟨rfl, rfl⟩ := Prod.mk.inj heq
  obtain ⟨hpages, -, hwritten⟩ :=
    st.tables.mapDynamicPages_spec (o'.got.reverse.map Prod.snd)
  rw [List.length_map, List.length_reverse] at hpages hwritten
  suffices htable : (table.root.isNull = true → table.height = 0) ∧ table.height ≤ 2 ∧
      table.EndsBy 5108 ∧
      table.root.entries.card = st.table.root.entries.card + o'.got.length by
    obtain ⟨hnull, hheight, hends, hcard⟩ := htable
    have hle : st.table.root.entries.card ≤ table.root.entries.card := by omega
    have hslots : ((st.tables.mapDynamicPages (o'.got.reverse.map Prod.snd)).1.sb.area
        .dynamic).pages ≤ table.root.entries.card := by
      have hold : (st.tables.sb.area .dynamic).pages ≤ _ := h.slots
      omega
    have hinv : Inv { st with tables := _, table := table, written := st.written } :=
      ⟨hnull, hheight, hends, hslots, h.numPages.trans hle, h.written⟩
    refine ⟨⟨hnull, hheight, hends, hslots, h.numPages.trans hle, fun k hk => ?_⟩, hle⟩
    rcases List.mem_append.mp hk with hk | hk
    · exact h.written k hk
    · rw [hwritten, List.mem_range'_1] at hk
      have := hinv.card_le
      dsimp only at this
      omega
  rcases File.pmfsAllocBlocks_cases blocknr true { o with got := [] } h.null hnum with
    hfull | ⟨r, hr, hadded, -⟩
  · rw [hfull] at hrun
    cases hrun
    exact ⟨h.null, h.height, h.ends, rfl⟩
  · rw [hr] at hrun
    cases hrun
    refine ⟨fun hnull => ?_, ?_, endsBy_setTree hadded h.ends hlast, ?_⟩
    · obtain ⟨hheight, hold⟩ := hadded.null hnull
      exact hheight.trans (h.null hold)
    · refine hadded.height.trans (File.heightFor_le_iff.mpr ⟨h.height, ?_⟩)
      exact Nat.lt_of_le_of_lt hlast (by decide)
    · have hcard := congrArg Multiset.card hadded.entries
      simpa [File.heap, File.setTree] using hcard

theorem Inv.mount (h : st.Inv) (sb : Sb) : (st.mount sb).Inv := by
  obtain ⟨hpages, -, hwritten⟩ :=
    Tables.recvVmapDynamic_spec st.numPages ⟨sb, st.tables.headBlocknr⟩
  refine ⟨h.null, h.height, h.ends, hpages.trans_le h.numPages, h.numPages, fun k hk => ?_⟩
  rcases List.mem_append.mp hk with hk | hk
  · exact h.written k hk
  · rw [hwritten, List.mem_range] at hk
    exact hk.trans_le (h.numPages.trans h.card_le)

theorem Inv.confirm (h : st.Inv) : st.wpmfsConfirmMptableDynamic.Inv :=
  ⟨h.null, h.height, h.ends, h.slots, h.slots, h.written⟩

theorem Inv.setSize (h : st.Inv) : Inv { st with table := { st.table with iSize := n } } :=
  ⟨h.null, h.height, h.ends, h.slots, h.numPages, h.written⟩

/-- A growth is an allocation, and a new size if it succeeds. -/
theorem growTable_alloc (hgrow : st.growTable o = some st') : ∃ err s n,
    st.allocBlocks o (st.table.iSize / 4096) 1 = some (err, s) ∧
      st' = { s with table := { s.table with iSize := n } } := by
  obtain ⟨⟨err, s⟩, halloc, rfl⟩ := Option.map_eq_some_iff.mp hgrow
  cases err with
  | none => exact ⟨none, s, _, halloc, rfl⟩
  | some e => exact ⟨some e, s, s.table.iSize, halloc, rfl⟩

theorem Inv.growTable (h : st.Inv) (hroom : st.HasRoom) (hgrow : st.growTable o = some st') :
    st'.Inv := by
  obtain ⟨err, s, n, halloc, rfl⟩ := growTable_alloc hgrow
  rw [HasRoom] at hroom
  exact (h.allocBlocks Nat.one_pos (by omega) halloc).1.setSize

/-- The transaction of a growth is undone, but what was mapped was written. -/
theorem Inv.undone (h : st.Inv) (h' : st'.Inv) (hnum : st'.numPages = st.numPages) (sb : Sb) :
    ({ st' with table := st.table }.mount sb).Inv := by
  obtain ⟨hpages, -, hwritten⟩ :=
    Tables.recvVmapDynamic_spec st'.numPages ⟨sb, st'.tables.headBlocknr⟩
  have hle : st'.numPages ≤ st.table.root.entries.card := hnum ▸ h.numPages
  refine ⟨h.null, h.height, h.ends, hpages.trans_le hle, hle, fun k hk => ?_⟩
  rcases List.mem_append.mp hk with hk | hk
  · exact h'.written k hk
  · rw [hwritten, List.mem_range] at hk
    exact hk.trans_le (hle.trans h.card_le)

theorem growTable_numPages (hgrow : st.growTable o = some st') : st'.numPages = st.numPages := by
  obtain ⟨err, s, n, halloc, rfl⟩ := growTable_alloc hgrow
  obtain ⟨⟨e, table, o'⟩, -, heq⟩ := Option.map_eq_some_iff.mp halloc
  obtain ⟨-, rfl⟩ := Prod.mk.inj heq
  rfl

theorem Inv.step (h : st.Inv) (hstep : Step HasRoom st st') : st'.Inv := by
  cases hstep with
  | grow o hok hgrow =>
    obtain ⟨s, hgrown, rfl⟩ := Option.map_eq_some_iff.mp hgrow
    exact (h.growTable hok hgrown).confirm
  | @crash o s committed sb hok hgrow =>
    have hinv := h.growTable hok hgrow
    cases committed with
    | false => exact h.undone hinv (growTable_numPages hgrow) sb
    | true => exact hinv.mount sb
  | remount sb => exact h.mount sb

theorem Inv.reaches (h : st.Inv) (hrun : Reaches HasRoom st st') : st'.Inv := by
  induction hrun with
  | refl => exact h
  | tail _ _ hstep ih => exact ih.step hstep

/-- The inode table of a new file system. -/
theorem inv_pmfsInitInodeTable {numInodes : UInt64} (hslots : (t.sb.area .dynamic).pages = 0)
    (hsize : initBlocks numInodes % 2 ^ 32 ≤ 5109)
    (hinit : pmfsInitInodeTable numInodes o t = some st) : st.Inv := by
  have hnew : Inv ⟨t, 0, ⟨0, .null, initBlocks numInodes * 4096, 0, false, 0⟩, false, []⟩ :=
    ⟨fun _ => rfl, Nat.zero_le _, fun l k hptr => by simp [File.ptr, File.treePtr] at hptr,
      hslots.trans_le (Nat.zero_le _), Nat.zero_le _, by simp⟩
  obtain ⟨⟨err, s⟩, halloc, rfl⟩ := Option.map_eq_some_iff.mp hinit
  have hinv : s.Inv := by
    rw [initTable] at halloc
    split at halloc
    · cases halloc
      exact hnew
    · exact (hnew.allocBlocks (by omega) (by omega) halloc).1
  dsimp only
  split
  · exact ⟨hinv.null, hinv.height, hinv.ends, hinv.slots, hinv.slots, hinv.written⟩
  · exact hinv

/-- A table with more blocks than there are in a tree is not made. -/
theorem refused_pmfsInitInodeTable {numInodes : UInt64}
    (hslots : (t.sb.area .dynamic).pages = 0)
    (hbig : 512 ^ 3 < initBlocks numInodes % 2 ^ 32)
    (hinit : pmfsInitInodeTable numInodes o t = some st) : st.mounted = false ∧ st.Fits := by
  have hheight : 3 < File.heightFor 0 (0 + initBlocks numInodes % 2 ^ 32 - 1) := by
    by_contra hle
    have := (File.heightFor_le_iff.mp (Nat.not_lt.mp hle)).2
    omega
  have hlast : 512 ^ 0 - 1 < 0 + initBlocks numInodes % 2 ^ 32 - 1 := by omega
  rw [pmfsInitInodeTable, initTable] at hinit
  dsimp only at hinit
  rw [if_neg (by omega), allocBlocks, File.pmfsAllocBlocks, if_pos ⟨hlast, hheight⟩] at hinit
  cases hinit
  refine ⟨rfl, hslots.trans_le (Nat.zero_le _), fun k hk => ?_⟩
  cases hk

theorem Reaches.eq_of_not_mounted (hrun : Reaches ok st st') (hmounted : st.mounted = false) :
    st' = st := by
  induction hrun with
  | refl => rfl
  | tail _ hs _ ih =>
    rw [ih, hmounted] at hs
    cases hs

/-- Blocks without end: each pointer of the new inode table takes a slot. -/
theorem exists_pmfsInitInodeTable (numInodes : UInt64) (t : Tables) (ho : o.Unlimited)
    (hpos : 0 < initBlocks numInodes % 2 ^ 32) (hle : initBlocks numInodes % 2 ^ 32 ≤ 512 ^ 3) :
    ∃ st, pmfsInitInodeTable numInodes o t = some st ∧
      initBlocks numInodes % 2 ^ 32 - 1 < 512 ^ st.table.height ∧
      File.fullCount st.table.height (initBlocks numInodes % 2 ^ 32 - 1) ≤ st.slots := by
  generalize hblocks : initBlocks numInodes = numBlocks at hpos hle ⊢
  have hlast : 0 + numBlocks % 2 ^ 32 - 1 = numBlocks % 2 ^ 32 - 1 := by omega
  have hheight : File.heightFor 0 (0 + numBlocks % 2 ^ 32 - 1) ≤ 3 :=
    File.heightFor_le_iff.mpr ⟨Nat.zero_le _, by omega⟩
  obtain ⟨f, o', hrun⟩ := File.pmfsAllocBlocks_unlimited (s := { o with got := [] })
    (f := ⟨0, .null, numBlocks * 4096, 0, false, 0⟩) (k := 0) true ho (fun _ => rfl) hpos hheight
  have hcases := File.pmfsAllocBlocks_cases (f := ⟨0, .null, numBlocks * 4096, 0, false, 0⟩) 0 true
    { o with got := [] } (fun _ => rfl) hpos
  rw [hrun, hlast] at hcases
  rcases hcases with hfull | ⟨r, hr, hadded, -⟩
  · cases hfull
  obtain ⟨hnone, hf, ho'⟩ : r.1 = none ∧ f = File.setTree _ r.2.1 r.2.2 ∧ o' = r.2.2.toEnv := by
    simpa [eq_comm] using hr
  have hfound : ∀ k ≤ numBlocks % 2 ^ 32 - 1, f.ptr 0 k ≠ none := by
    intro k hk
    rw [hf]
    exact hadded.found hnone k ⟨Nat.zero_le k, hk⟩
  have hcard : f.root.entries.card = o'.got.length := by
    have hentries := congrArg Multiset.card hadded.entries
    rw [hf, ho']
    simpa [File.heap, File.setTree] using hentries
  obtain ⟨hpages, -, -⟩ := t.mapDynamicPages_spec (o'.got.reverse.map Prod.snd)
  rw [List.length_map, List.length_reverse, ← hcard] at hpages
  rw [pmfsInitInodeTable, initTable, hblocks]
  dsimp only
  rw [if_neg hpos.ne', allocBlocks, hrun]
  refine ⟨_, rfl, File.lt_of_ptr (hfound _ le_rfl), (File.fullCount_le_card hfound).trans ?_⟩
  change f.root.entries.card ≤
    ((t.mapDynamicPages (o'.got.reverse.map Prod.snd)).1.sb.area .dynamic).pages
  omega

/-- A tree that is to have the block 5109 takes more pages than the table has slots. -/
theorem lt_fullCount {h : ℕ} (hn : 5109 ≤ n) (hlt : n < 512 ^ h) :
    dynamicSlots < File.fullCount h n := by
  have hheight : 2 ≤ h := by
    by_contra hh
    have hpow : 512 ^ h ≤ 512 ^ 1 := Nat.pow_le_pow_right (by decide) (by omega)
    omega
  have hfull : dynamicSlots < File.fullCount 2 5109 := by decide
  refine hfull.trans_le (le_trans (b := File.fullCount 2 n) ?_ ?_)
  · exact Finset.sum_le_sum fun l _ => Nat.succ_le_succ (Nat.div_le_div_right hn)
  · exact Finset.sum_le_sum_of_subset (Finset.range_subset_range.mpr (Nat.succ_le_succ hheight))

/-- The free blocks of a new file system, one after the other. -/
def freeBlocks (first : ℕ) : Env :=
  ⟨fun k => .ok (first + 2 * k), fun k => .ok (first + 1 + 2 * k), [], fun _ _ => 0⟩

theorem freeBlocks_gives (hfirst : 0 < n) : (freeBlocks n).Gives (Multiset.range n) := by
  constructor
  · rintro (i | i) (j | j) b hi hj <;> simp [Env.answer, freeBlocks] at hi hj ⊢ <;> omega
  · intro r b hr
    have hle : n ≤ b := by rcases r with i | i <;> simp [Env.answer, freeBlocks] at hr <;> omega
    exact ⟨by omega, fun hmem => absurd (Multiset.mem_range.mp hmem) (Nat.not_lt.mpr hle)⟩

theorem freeBlocks_unlimited (n : ℕ) : (freeBlocks n).Unlimited := by
  rintro (k | k) e h
  · cases h
  · cases h

/-- From the format on, whatever the allocator gives of the blocks after the reserved ones, the slots
fit exactly if the inode table is made for at most 5109 blocks, or for more than a tree can have. It
grows only below 5109 blocks. -/
theorem Reaches.slots_fit_iff {m : Space n} {wear : Bool} {numBins : ℕ} (numInodes : UInt64) :
    (∀ o st st', o.Gives (Multiset.range (Sb.mapPages n + n + 10)) →
      pmfsInitInodeTable numInodes o (m.format wear numBins sb) = some st →
      Reaches HasRoom st st' → st'.Fits) ↔
    initBlocks numInodes % 2 ^ 32 ≤ 5109 ∨ 512 ^ 3 < initBlocks numInodes % 2 ^ 32 := by
  have hslots : ((m.format wear numBins sb).sb.area .dynamic).pages = 0 := by
    rw [Space.format, Sb.hardInit, Sb.setupVmapDynamic, Sb.setArea_self]
  constructor
  · intro hfits
    by_contra hsize
    have hunlimited := freeBlocks_unlimited (Sb.mapPages n + n + 10)
    obtain ⟨st, hinit, hlast, hfull⟩ := exists_pmfsInitInodeTable numInodes
      (m.format wear numBins sb) hunlimited (by omega) (by omega)
    have hlt := lt_fullCount (by omega) hlast
    have hslots := (hfits _ _ _ (freeBlocks_gives (by omega)) hinit .refl).slots
    exact absurd hslots (Nat.not_le.mpr (hlt.trans_le hfull))
  · rintro (hsize | hbig) o st st' - hinit hrun
    · exact ((inv_pmfsInitInodeTable hslots hsize hinit).reaches hrun).fits
    · obtain ⟨hmounted, hfits⟩ := refused_pmfsInitInodeTable hslots hbig hinit
      rwa [hrun.eq_of_not_mounted hmounted]

/-- A device of 64 MiB. -/
def wideSpace : Space 17 :=
  { space with
    initsize := 0x4000000
    physical := by decide
    virtual := by decide
    direct := by decide
    reserved := by decide }

/-- An inode table for 163520 inodes has 5110 blocks. -/
theorem not_slots_fit : ¬∀ (numInodes : UInt64) (o : Env) (st st' : TableState),
    o.Gives (Multiset.range 28) →
    pmfsInitInodeTable numInodes o (wideSpace.format false 4 Sb.blank) = some st →
    Reaches (fun _ => True) st st' → st'.Fits := by
  intro h
  have hblocks : initBlocks 163520 % 2 ^ 32 = 5110 := by decide
  have hpos : 0 < initBlocks 163520 % 2 ^ 32 := by
    rw [hblocks]
    decide
  have hle : initBlocks 163520 % 2 ^ 32 ≤ 512 ^ 3 := by
    rw [hblocks]
    decide
  obtain ⟨st, hinit, hlast, hfull⟩ := exists_pmfsInitInodeTable 163520
    (wideSpace.format false 4 Sb.blank) (freeBlocks_unlimited 28) hpos hle
  rw [hblocks] at hlast hfull
  have hlt := lt_fullCount (by decide) hlast
  have hslots := (h _ _ _ _ (freeBlocks_gives (by decide)) hinit .refl).slots
  exact absurd hslots (Nat.not_le.mpr (hlt.trans_le hfull))

end TableState

end Wpmfs.Vmap
