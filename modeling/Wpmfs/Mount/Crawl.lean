import Wpmfs.Balloc.Rebuild
import Wpmfs.Migrate.Basic
import Wpmfs.Vmap.Remount

/-!
# Page marks at the next mount

A mount clears the page marks. Then `wpmfs_recv_memory` marks the pages of the mapping tables and
those behind them, and the blocks that the rebuild of the block map frees are marked. A block that
the crawl of the inode table visits gets its bit in the bitmap, but no mark.
-/

namespace Wpmfs.Mount

open Balloc Vmap Migrate

/-! ## The crawl -/

/-- `wpmfs_inode_crawl_recursive`: the blocks whose bits it sets. `none` is a bad pointer. -/
def wpmfsInodeCrawlRecursive (sb : Sb) : (height blockoff : ℕ) → Option (List ℕ)
  | 0, blockoff => (sb.wpmfsGetPfn blockoff).map fun blocknr => [blocknr]
  | height + 1, blockoff => do
    let blocknr ← sb.wpmfsGetPfn blockoff
    let node ← sb.wpmfsGetBlock blockoff
    let below ← (List.range 512).mapM fun i =>
      if sb.word node i = 0 then some []
      else wpmfsInodeCrawlRecursive sb height (sb.word node i)
    return blocknr :: below.flatten

/-- `wpmfs_inode_crawl` of the inode at the word `w` of a block. -/
def wpmfsInodeCrawl (sb : Sb) (b w : ℕ) : Option (List ℕ) :=
  let root := sb.word b (w + 1)
  if root = 0 then some []
  else wpmfsInodeCrawlRecursive sb (sb.word b w / 2 ^ 16 % 2 ^ 8) root

/-- The test for an empty inode, of its `i_links_count`, `i_mode` and `i_dtime`. -/
def emptyInode (sb : Sb) (b w : ℕ) : Bool :=
  let v := sb.word b (w + 4)
  decide (v / 2 ^ 48 % 2 ^ 16 = 0 ∧ (v / 2 ^ 32 % 2 ^ 16 = 0 ∨ v % 2 ^ 32 ≠ 0))

/-- `wpmfs_inode_table_crawl_recursive`, on an inode table of 4K blocks. -/
def wpmfsInodeTableCrawlRecursive (sb : Sb) : (height blockoff : ℕ) → Option (List ℕ)
  | 0, blockoff => do
    let blocknr ← sb.wpmfsGetPfn blockoff
    let node ← sb.wpmfsGetBlock blockoff
    let below ← (List.range 32).mapM fun i =>
      if emptyInode sb node (16 * i) then some [] else wpmfsInodeCrawl sb node (16 * i)
    return blocknr :: below.flatten
  | height + 1, blockoff => do
    let blocknr ← sb.wpmfsGetPfn blockoff
    let node ← sb.wpmfsGetBlock blockoff
    let below ← (List.range 512).mapM fun i =>
      if sb.word node i = 0 then some []
      else wpmfsInodeTableCrawlRecursive sb height (sb.word node i)
    return blocknr :: below.flatten

/-! ## The mount -/

/-- The file system with its inode table, whether `vmap` is on, and what the head of the mapping
tables says of the dynamic one: `head_blocknr` and `num_pages`. -/
structure Volume where
  fs : Fs
  table : PmfsInode
  vmapEnabled : Bool
  headBlocknr : ℕ
  numPages : ℕ

/-- What a mount depends on: the number of bins, the interrupt threshold, what the counters read,
and the size of the device. -/
structure Setup where
  numBins : ℕ
  power : ℕ
  cnter : ℕ → UInt64
  initsize : ℕ

namespace Volume

/-- The blocks of the inode table and of the trees of inodes; there are none before the table has
its first block. -/
def trees (v : Volume) : Option (List ℕ) :=
  if v.table.root = 0 then some []
  else wpmfsInodeTableCrawlRecursive v.fs.sb v.table.height v.table.root

/-- The blocks of the mapping tables. -/
def IsTable (v : Volume) (b : ℕ) : Prop :=
  v.vmapEnabled = true ∧ (b < Sb.mapPages (v.fs.sb.area .static).pages ∨
    v.headBlocknr ≤ b ∧ b < v.headBlocknr + 10)

end Volume

/-- `pmfs_get_block_info` clears the marks of the pages of the device. The allocator has its bins,
and no block yet. -/
def clearMarks (u : Setup) (sb : Sb) : Sb :=
  { sb with
    alloc := .wear
      { sbi :=
          { blockStart := 0
            blockEnd := 0
            numFreeBlocks := 0
            unusedBlockLow := 0
            unusedBlockHigh := 0
            blockBins := List.replicate u.numBins []
            pageMarks := fun b => if b < u.initsize / 4096 then {} else sb.marks b }
        allocated := []
        clock := 0
        freedAt := fun _ => 0 } }

/-- The first loop of `recv_vmap_dynamic`, `count` rounds of it. -/
def markDynamic (head : ℕ) : (count : ℕ) → Sb → Sb
  | 0, sb => sb
  | curPage + 1, sb =>
    let sb := markDynamic head curPage sb
    { sb with alloc := sb.alloc.markPage (head + curPage) .inUse }

/-- The second loop, `count` rounds of it. The slots that it reads are those of `mptable`. -/
def mapDynamic (mptable : ℕ → ℕ) : (count : ℕ) → Sb → Sb
  | 0, sb => sb
  | curPage + 1, sb => (mapDynamic mptable curPage sb).wpmfsMapDynamicPage (mptable curPage)

/-- `recv_vmap_dynamic`. -/
def recvVmapDynamic (head numPages : ℕ) (sb : Sb) : Sb :=
  let m := sb.area .dynamic
  let sb := sb.setArea .dynamic { m with pte := fun _ => none, pages := 0 }
  mapDynamic m.slot numPages (markDynamic head 10 sb)

/-- `wpmfs_recv_memory`, when nothing fails. -/
def wpmfsRecvMemory (v : Volume) (sb : Sb) : Sb :=
  if v.vmapEnabled then
    let m := sb.area .static
    recvVmapDynamic v.headBlocknr v.numPages (sb.recvVmapStatic m.pages m.slot).sb
  else sb

/-- The bitmap of the crawl. -/
def bitmap (crawled : List ℕ) (b : ℕ) : Bool := decide (b ∈ crawled)

/-- `wpmfs_setup_blocknode_map`, with the blocks that the crawl visits. The blocks that are then in
no bin count as handed out. -/
def setupBlocknodeMap (u : Setup) (crawled : List ℕ) (sb : Sb) : Option Sb :=
  match sb.alloc with
  | .wear r =>
    (r.sbi.wpmfsSetupBlocknodeMap u.power u.cnter (bitmap crawled) u.initsize).map fun sbi =>
      { sb with
        alloc := .wear
          { sbi := sbi
            allocated := (List.range' 1 (u.initsize / 4096 - 1)).filter fun b =>
              decide (b ∉ sbi.blockBins.flatten)
            clock := 0
            freedAt := fun _ => 0 } }
  | .ranges _ _ => none

/-- Before the rebuild the journal is undone, and the inodes of the truncate list are dealt with:
blocks are freed, and may be handed out again. -/
inductive Recovers (sb t : Sb) : Prop where
  | store (h : t = { sb with words := t.words })
  | newBlock (o : Surroundings) (h : t = (sb.newBlock o).2)
  | freeBlock (o : Surroundings) (b : ℕ) (h : sb.freeBlock o b = some t)

/-- The mount of an image. In the state `sb` the rebuild of the block map begins, and `crawled` are
the blocks that its crawl visits. -/
structure Mounts (u : Setup) (v : Volume) (sb : Sb) (crawled : List ℕ) (t : Volume) : Prop where
  recovered : Relation.ReflTransGen Recovers (wpmfsRecvMemory v (clearMarks u v.fs.sb)) sb
  crawl : wpmfsInodeTableCrawlRecursive sb t.table.height t.table.root = some crawled
  setup : setupBlocknodeMap u crawled sb = some t.fs.sb
  vmapEnabled : t.vmapEnabled = v.vmapEnabled
  headBlocknr : t.headBlocknr = v.headBlocknr
  numPages : t.numPages = v.numPages

/-- The volume of a new file system with `n` reserved pages. -/
def format (u : Setup) (vmapEnabled : Bool) (n : ℕ) (fs : Fs) : Volume :=
  let sb := clearMarks u fs.sb
  { fs := fs.setSb
      (if vmapEnabled then Sb.hardInit true (u.initsize / 4096) u.numBins n sb
      else { sb with
        alloc := .start true n (u.initsize / 4096) u.numBins (4096 * n) sb.alloc.pageMarks })
    table := ⟨0, 0⟩
    vmapEnabled := vmapEnabled
    headBlocknr := Sb.mapPages n + n
    numPages := 0 }

/-! ## Marks after the mount -/

variable {u : Setup} {v t : Volume} {sb sb' : Sb} {crawled : List ℕ} {b : ℕ} {a : Factory}

/-- The crawl does not look at the allocator. -/
theorem wpmfsInodeCrawlRecursive_alloc (height blockoff : ℕ) :
    wpmfsInodeCrawlRecursive { sb with alloc := a } height blockoff =
      wpmfsInodeCrawlRecursive sb height blockoff := by
  induction height generalizing blockoff with
  | zero => rfl
  | succ height ih =>
    simp only [wpmfsInodeCrawlRecursive, ih]
    rfl

theorem wpmfsInodeTableCrawlRecursive_alloc (height blockoff : ℕ) :
    wpmfsInodeTableCrawlRecursive { sb with alloc := a } height blockoff =
      wpmfsInodeTableCrawlRecursive sb height blockoff := by
  induction height generalizing blockoff with
  | zero =>
    simp only [wpmfsInodeTableCrawlRecursive, wpmfsInodeCrawl, wpmfsInodeCrawlRecursive_alloc]
    rfl
  | succ height ih =>
    simp only [wpmfsInodeTableCrawlRecursive, ih]
    rfl

/-- The pages of a list are marked after they were tried, and no other page that was not. -/
theorem tryFree_pageUsing {power : ℕ} {cnter : ℕ → UInt64} {s s' : BinAlloc} {l : List ℕ}
    (h : l.foldlM (BinAlloc.wpmfsTryFreeBlock power cnter) s = some s') :
    (s'.pageMarks b).pageUsing = true ↔ (s.pageMarks b).pageUsing = true ∨ b ∈ l := by
  induction l generalizing s with
  | nil =>
    obtain rfl : s = s' := by simpa using h
    simp
  | cons c l ih =>
    rw [List.foldlM_cons] at h
    obtain ⟨s₁, htry, hrest⟩ := Option.bind_eq_some_iff.1 h
    have hstep : (s₁.pageMarks b).pageUsing = true ↔
        (s.pageMarks b).pageUsing = true ∨ b = c := by
      unfold BinAlloc.wpmfsTryFreeBlock at htry
      split at htry
      · obtain rfl := Option.some.inj htry
        grind
      · unfold BinAlloc.wpmfsFreeBlock at htry
        dsimp only at htry
        split at htry
        · cases htry
        · obtain rfl := Option.some.inj htry
          by_cases hbc : b = c <;> simp [hbc]
    rw [ih hrest, hstep, List.mem_cons, or_assoc]

/-- The blocks that the rebuild tries to free. -/
def tried (u : Setup) (crawled : List ℕ) : List ℕ :=
  BinAlloc.visited (bitmap crawled) ((u.initsize / 2 ^ 15 + 1) * 8)

/-- The rebuild marks the blocks that it tries to free. -/
theorem setupBlocknodeMap_marks (h : setupBlocknodeMap u crawled sb = some sb') :
    (sb'.marks b).pageUsing = true ↔ (sb.marks b).pageUsing = true ∨ b ∈ tried u crawled := by
  cases halloc : sb.alloc with
  | ranges r marks => simp [setupBlocknodeMap, halloc] at h
  | wear r =>
    simp only [setupBlocknodeMap, halloc] at h
    obtain ⟨sbi, hsbi, rfl⟩ := Option.map_eq_some_iff.1 h
    have hold : sb.marks b = r.sbi.pageMarks b := by rw [Sb.marks, halloc]; rfl
    unfold BinAlloc.wpmfsSetupBlocknodeMap at hsbi
    dsimp only at hsbi
    rw [BinAlloc.wpmfsBuildBlocknodeMap_eq _ (by omega)] at hsbi
    have hmarks := tryFree_pageUsing (b := b) hsbi
    rw [hold]
    exact hmarks

/-- A block that is not in the bitmap is tried. -/
theorem mem_tried (hpos : 1 ≤ b) (hlt : b < u.initsize / 4096) (hout : b ∉ crawled) :
    b ∈ tried u crawled :=
  mem_visited.2 ⟨by omega, .inl ⟨hpos, by simpa [bitmap] using hout⟩⟩

theorem setupBlocknodeMap_inUse (h : setupBlocknodeMap u crawled sb = some sb')
    (hb : sb'.alloc.InUse b) : 1 ≤ b ∧ b < u.initsize / 4096 := by
  cases halloc : sb.alloc with
  | ranges r marks => simp [setupBlocknodeMap, halloc] at h
  | wear r =>
    simp only [setupBlocknodeMap, halloc] at h
    obtain ⟨sbi, hsbi, rfl⟩ := Option.map_eq_some_iff.1 h
    have hmem := (List.mem_filter.1 hb).1
    rw [List.mem_range'_1] at hmem
    omega

theorem setupBlocknodeMap_eq (h : setupBlocknodeMap u crawled sb = some sb') :
    sb' = { sb with alloc := sb'.alloc } ∧ sb'.alloc.isWear = true := by
  cases halloc : sb.alloc with
  | ranges r marks => simp [setupBlocknodeMap, halloc] at h
  | wear r =>
    simp only [setupBlocknodeMap, halloc] at h
    obtain ⟨sbi, hsbi, rfl⟩ := Option.map_eq_some_iff.1 h
    exact ⟨rfl, rfl⟩

/-- The trees after the mount are those of the crawl. -/
theorem Mounts.trees (h : Mounts u v sb crawled t) (hroot : t.table.root ≠ 0) :
    t.trees = some crawled := by
  rw [Volume.trees, if_neg hroot, (setupBlocknodeMap_eq h.setup).1,
    wpmfsInodeTableCrawlRecursive_alloc]
  exact h.crawl

end Wpmfs.Mount
