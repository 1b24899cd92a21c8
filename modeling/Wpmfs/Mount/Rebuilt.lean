import Wpmfs.Balloc.RangeRebuild
import Wpmfs.Mount.Recover

/-!
# The map of blocks after recovery

When the truncate list is dealt with, a mount crawls the inode table and the trees of the inodes,
and makes the map of free blocks from the bits that the crawl sets. Recovery may have freed blocks
before. With the bins such a block is in a bin, and the mark of its page keeps the rebuild from
freeing it again. With the list of ranges there is no list yet, and a free ends in its `BUG_ON`.

Blocks are named by their number. The table is a tree of blocks of 4K, with 32 inodes in each, and
an inode is named by its offset in the table.
-/

namespace Wpmfs.Mount

open File Balloc

/-! ## The crawl -/

/-- The bitmap of `struct scan_bitmap`, and the counts of inodes of `struct pmfs_sb_info`. -/
structure Scan where
  bitmap4k : ℕ → Bool
  sInodesCount : ℕ
  sInodesUsedCount : ℕ

namespace Scan

/-- Before the crawl. -/
def start : Scan := ⟨fun _ => false, 0, 0⟩

def setBit (bm : Scan) (blocknr : ℕ) : Scan :=
  { bm with bitmap4k := Function.update bm.bitmap4k blocknr true }

/-- `wpmfs_inode_crawl_recursive`, and `pmfs_inode_crawl_recursive` for blocks of 4K. -/
def inodeCrawlRecursive : {h : ℕ} → Slot h → Scan → Scan
  | _, .null, bm => bm
  | _, .data b, bm => bm.setBit b
  | _, .page b node, bm =>
    (List.range 512).foldl (fun bm i => inodeCrawlRecursive (node i) bm) (bm.setBit b)

/-- What the crawl does at one inode of the table. -/
def crawlInode (pi : TableInode) (bm : Scan) : Scan :=
  if pi.IsFree then bm
  else inodeCrawlRecursive pi.file.root { bm with sInodesUsedCount := bm.sInodesUsedCount + 1 }

/-- `wpmfs_inode_table_crawl_recursive` and `pmfs_inode_table_crawl_recursive`, below a pointer that
leads to the blocks of the table from `first` on. -/
def inodeTableCrawlRecursive (inodes : ℕ → TableInode) :
    {h : ℕ} → Slot h → (first : ℕ) → Scan → Scan
  | _, .null, _, bm => bm
  | _, .data b, first, bm =>
    let bm := bm.setBit b
    (List.range 32).foldl (fun bm i => crawlInode (inodes (4096 * first + 128 * i)) bm)
      { bm with sInodesCount := bm.sInodesCount + 32 }
  | h + 1, .page b node, first, bm =>
    (List.range 512).foldl
      (fun bm i => inodeTableCrawlRecursive inodes (node i) (first + i * 512 ^ h) bm) (bm.setBit b)

end Scan

/-! ## The mount -/

/-- What a mount leaves: the inodes, what the crawl found, and the allocator. -/
structure Mounted (α : Type) where
  image : Image
  scan : Scan
  alloc : α

/-- The bits that the bitmap of 4K blocks has. -/
def bitmapBits (initsize : ℕ) : ℕ := (initsize / 2 ^ 15 + 1) * 8

/-- `pmfs_fill_super` from `pmfs_recover_truncate_list` on, with the bins. `cnter b` is what the
counter of the block `b` reads when the block is freed. -/
def mountBins {h : ℕ} (u : Support) (power : ℕ) (cnter : ℕ → UInt64) (initsize n : ℕ)
    (table : Slot h) (s : Image) (sbi : BinAlloc) : Option (Mounted BinAlloc) := do
  let (out, s) ← s.pmfsRecoverTruncateList u n
  let sbi ← (out.reverse.map Prod.snd).foldlM
    (fun sbi b => sbi.wpmfsFreeBlock power cnter b .b4K) sbi
  let bm := Scan.inodeTableCrawlRecursive s.inodes table 0 .start
  let sbi ← sbi.wpmfsSetupBlocknodeMap power cnter bm.bitmap4k initsize
  return ⟨s, bm, sbi⟩

/-- `PMFS_BLOCKNODE_IN0`. -/
def blocknodeIn0 : ℕ := 256

/-- `pmfs_clear_datablock_inode`: the first half of the inode is set to 0. -/
def Image.pmfsClearDatablockInode (u : Support) (s : Image) : Image :=
  if u.newTransaction blocknodeIn0 = false then s
  else
    { s with
      inodes := Function.update s.inodes blocknodeIn0
        { s.inodes blocknodeIn0 with
          iLinksCount := 0
          iDtime := 0
          append := false
          immutable := false
          file := ⟨0, .null, 0, 0, false, 0⟩ } }

/-- The part of `pmfs_setup_blocknode_map` past the crawl. There is memory for the nodes of the
list. The second result lists the ranges that are not inserted. -/
def setupBlocknodeList (bitmap : ℕ → Bool) (initsize reserved : ℕ) (sbi : RangeAlloc) :
    RangeAlloc × List (ℕ × ℕ) :=
  let sbi := { sbi with
    blockStart := 0
    blockEnd := initsize / 4096
    numFreeBlocks := initsize / 4096 }
  (sbi.pmfsInitBlockmap reserved).pmfsBuildBlocknodeMap bitmap (bitmapBits initsize) 0 fun _ => true

/-- `pmfs_fill_super` from `pmfs_recover_truncate_list` on, with the list of ranges, where
`pmfs_can_skip_full_scan` finds no list that was saved. The reserved prefix has `reserved` bytes. -/
def mountRanges {h : ℕ} (u : Support) (initsize reserved n : ℕ) (table : Slot h) (s : Image)
    (sbi : RangeAlloc) : Option (Mounted (RangeAlloc × List (ℕ × ℕ))) := do
  let (out, s) ← s.pmfsRecoverTruncateList u n
  let sbi ← (out.reverse.map Prod.snd).foldlM
    (fun sbi b => (sbi.pmfsFreeBlock b .b4K none true).map Prod.fst) sbi
  let s := s.pmfsClearDatablockInode u
  let bm := Scan.inodeTableCrawlRecursive s.inodes table 0 .start
  return ⟨s, bm, setupBlocknodeList bm.bitmap4k initsize reserved sbi⟩

/-! ## Who has which block -/

/-- The inodes of the table, below a pointer that leads to its blocks from `first` on. -/
def inos : {h : ℕ} → Slot h → (first : ℕ) → List ℕ
  | _, .null, _ => []
  | _, .data _, first => (List.range 32).map fun i => 4096 * first + 128 * i
  | h + 1, .page _ node, first =>
    (List.range 512).flatMap fun i => inos (node i) (first + i * 512 ^ h)

variable {u : Support} {s s' : Image} {h first b i initsize reserved power : ℕ} {l : List ℕ}
  {out : List (ℕ × ℕ)} {t table : Slot h} {cnter : ℕ → UInt64}

namespace Image

/-- The blocks of the table and of the trees of its inodes. -/
def claimed (s : Image) (table : Slot h) : Multiset ℕ :=
  (table.entries + s.blocks (inos table 0)).map Prod.snd

/-- No block has two uses, the blocks are from `low` on and before `high`, and an inode that is free
has none. -/
structure Consistent (s : Image) (table : Slot h) (low high : ℕ) : Prop where
  root : table ≠ .null
  nodup : (s.claimed table).Nodup
  bounds : ∀ b ∈ s.claimed table, low ≤ b ∧ b < high
  free : ∀ i ∈ inos table 0, (s.inodes i).IsFree → (s.inodes i).file.root = .null

end Image

/-! ## What the crawl finds -/

/-- A pointer of the tree leads to the block. -/
def Owns (t : Slot h) (b : ℕ) : Prop := b ∈ t.entries.map Prod.snd

theorem not_owns_null : ¬Owns (.null : Slot h) b := by
  rw [Owns, Slot.entries_null, Multiset.map_zero]
  exact Multiset.notMem_zero b

theorem owns_data {c : ℕ} : Owns (.data c) b ↔ b = c := by
  rw [Owns, Slot.entries, Multiset.map_singleton, Multiset.mem_singleton]

theorem owns_page {c : ℕ} {node : ℕ → Slot h} :
    Owns (.page c node) b ↔ b = c ∨ ∃ i < 512, Owns (node i) b := by
  simp only [Owns, Slot.entries_page, Multiset.map_cons, Multiset.mem_cons, Multiset.mem_map,
    Multiset.mem_sum, Finset.mem_range]
  grind

namespace Scan

/-- What a part of the crawl adds: the bits of the blocks that meet `p`, and to the two counts. -/
structure Adds (bm : Scan) (p : ℕ → Prop) (count used : ℕ) (bm' : Scan) : Prop where
  bits : ∀ b, bm'.bitmap4k b = true ↔ bm.bitmap4k b = true ∨ p b
  count : bm'.sInodesCount = bm.sInodesCount + count
  used : bm'.sInodesUsedCount = bm.sInodesUsedCount + used

variable {bm bm' bm'' : Scan} {p q : ℕ → Prop} {n m k j : ℕ} {inodes : ℕ → TableInode}

theorem Adds.refl (hp : ∀ b, ¬p b) : Adds bm p 0 0 bm :=
  ⟨fun b => (or_iff_left (hp b)).symm, rfl, rfl⟩

theorem Adds.trans (h : Adds bm p n k bm') (h' : Adds bm' q m j bm'') :
    Adds bm (fun b => p b ∨ q b) (n + m) (k + j) bm'' := by
  refine ⟨fun b => ?_, ?_, ?_⟩
  · rw [h'.bits, h.bits, or_assoc]
  · rw [h'.count, h.count, Nat.add_assoc]
  · rw [h'.used, h.used, Nat.add_assoc]

theorem Adds.congr (h : Adds bm p n k bm') (hp : ∀ b, p b ↔ q b) (hn : n = m) (hk : k = j) :
    Adds bm q m j bm' :=
  ⟨fun b => by rw [h.bits, hp], by rw [h.count, hn], by rw [h.used, hk]⟩

theorem Adds.setBit {c : ℕ} : Adds bm (· = c) 0 0 (bm.setBit c) := by
  refine ⟨fun b => ?_, rfl, rfl⟩
  by_cases hb : b = c
  · simp [Scan.setBit, hb]
  · simp [Scan.setBit, hb]

/-- A loop adds what its rounds add. -/
theorem Adds.foldl {ι : Type} {step : Scan → ι → Scan} {p : ι → ℕ → Prop} {n k : ι → ℕ}
    (hstep : ∀ bm i, Adds bm (p i) (n i) (k i) (step bm i)) (l : List ι) :
    Adds bm (fun b => ∃ i ∈ l, p i b) (l.map n).sum (l.map k).sum (l.foldl step bm) := by
  induction l generalizing bm with
  | nil => exact .refl fun b ⟨i, hi, _⟩ => absurd hi List.not_mem_nil
  | cons i l ih => exact ((hstep bm i).trans ih).congr (fun b => by simp) rfl rfl

theorem sum_map_zero (l : List ℕ) : (l.map fun _ => 0).sum = 0 := by
  simp

theorem sum_map_ite (p : ℕ → Prop) [DecidablePred p] (l : List ℕ) :
    (l.map fun i => if p i then 0 else 1).sum = l.countP fun i => ¬p i := by
  induction l with
  | nil => rfl
  | cons i l ih =>
    rw [List.map_cons, List.sum_cons, ih, List.countP_cons, Nat.add_comm]
    by_cases hi : p i
    · simp [hi]
    · simp [hi]

/-- The crawl of a tree sets the bits of its blocks. -/
theorem adds_inodeCrawlRecursive (t : Slot h) :
    Adds bm (Owns t) 0 0 (inodeCrawlRecursive t bm) := by
  induction t generalizing bm with
  | @null h =>
    cases h
    all_goals exact .refl fun b => not_owns_null
  | data c => exact Adds.setBit.congr (fun b => owns_data.symm) rfl rfl
  | page c node ih =>
    have hloop := @Adds.foldl (bm.setBit c) ℕ (fun bm i => inodeCrawlRecursive (node i) bm)
      (fun i => Owns (node i)) (fun _ => 0) (fun _ => 0) (fun _ i => ih i) (List.range 512)
    rw [sum_map_zero] at hloop
    refine (Adds.setBit.trans hloop).congr (fun b => ?_) rfl rfl
    rw [owns_page]
    simp only [List.mem_range]

/-- The crawl of an inode counts it and sets the bits of its blocks, if it is in use. -/
theorem adds_crawlInode (pi : TableInode) : Adds bm (fun b => ¬pi.IsFree ∧ Owns pi.file.root b) 0
    (if pi.IsFree then 0 else 1) (crawlInode pi bm) := by
  rw [crawlInode]
  by_cases hfree : pi.IsFree
  · rw [if_pos hfree, if_pos hfree]
    exact .refl fun b hb => hb.1 hfree
  · rw [if_neg hfree, if_neg hfree]
    have hcount : Adds bm (fun _ => False) 0 1
        { bm with sInodesUsedCount := bm.sInodesUsedCount + 1 } :=
      ⟨fun b => (or_iff_left id).symm, rfl, rfl⟩
    refine (hcount.trans (adds_inodeCrawlRecursive pi.file.root)).congr (fun b => ?_) rfl rfl
    rw [false_or, and_iff_right hfree]

/-- The crawl of the table. -/
theorem adds_inodeTableCrawlRecursive (t : Slot h) :
    Adds bm
      (fun b => Owns t b ∨ ∃ i ∈ inos t first, ¬(inodes i).IsFree ∧ Owns (inodes i).file.root b)
      (inos t first).length ((inos t first).countP fun i => ¬(inodes i).IsFree)
      (inodeTableCrawlRecursive inodes t first bm) := by
  induction t generalizing bm first with
  | @null h =>
    cases h
    all_goals
      refine .refl fun b hb => ?_
      rcases hb with hb | ⟨i, hi, -⟩
      · exact not_owns_null hb
      · exact absurd hi List.not_mem_nil
  | data c =>
    have hloop := @Adds.foldl { bm.setBit c with sInodesCount := (bm.setBit c).sInodesCount + 32 } ℕ
      (fun bm i => crawlInode (inodes (4096 * first + 128 * i)) bm) _ _ _
      (fun _ i => adds_crawlInode (inodes (4096 * first + 128 * i))) (List.range 32)
    have hcount : Adds (bm.setBit c) (fun _ => False) 32 0
        { bm.setBit c with sInodesCount := (bm.setBit c).sInodesCount + 32 } :=
      ⟨fun b => (or_iff_left id).symm, rfl, rfl⟩
    rw [sum_map_zero] at hloop
    refine ((Adds.setBit.trans hcount).trans hloop).congr (fun b => ?_) ?_ ?_
    · rw [owns_data, or_false, inos]
      simp only [List.mem_map, exists_exists_and_eq_and]
    · rw [inos, List.length_map, List.length_range]
    · rw [inos, List.countP_map, Nat.zero_add]
      exact sum_map_ite (fun i => (inodes (4096 * first + 128 * i)).IsFree) (List.range 32)
  | @page h c node ih =>
    have hloop := @Adds.foldl (bm.setBit c) ℕ
      (fun bm i => inodeTableCrawlRecursive inodes (node i) (first + i * 512 ^ h) bm) _ _ _
      (fun _ i => ih i) (List.range 512)
    refine (Adds.setBit.trans hloop).congr (fun b => ?_) ?_ ?_
    · rw [owns_page, inos]
      simp only [List.mem_flatMap, List.mem_range]
      grind
    · rw [inos, List.length_flatMap, Nat.zero_add]
    · rw [inos, List.countP_flatMap, Nat.zero_add]
      rfl

end Scan

/-! ## The inodes of the table -/

theorem inos_bounds (t : Slot h) (hi : i ∈ inos t first) :
    4096 * first ≤ i ∧ i < 4096 * (first + 512 ^ h) := by
  induction t generalizing first with
  | @null h =>
    cases h
    all_goals exact absurd hi List.not_mem_nil
  | data c =>
    obtain ⟨j, hj, rfl⟩ := List.mem_map.mp hi
    have := List.mem_range.mp hj
    omega
  | @page h c node ih =>
    obtain ⟨j, hj, hi⟩ := List.mem_flatMap.mp hi
    have hij := ih j hi
    have hle : (j + 1) * 512 ^ h ≤ 512 * 512 ^ h :=
      Nat.mul_le_mul_right _ (List.mem_range.mp hj)
    rw [Nat.succ_mul] at hle
    rw [pow_succ']
    omega

/-- No inode is twice in the table. -/
theorem inos_nodup (t : Slot h) : (inos t first).Nodup := by
  induction t generalizing first with
  | @null h =>
    cases h
    all_goals exact List.nodup_nil
  | data c => exact List.nodup_range.map fun j k hjk => by simpa using hjk
  | @page h c node ih =>
    refine List.nodup_flatMap.mpr ⟨fun j _ => ih j, List.pairwise_lt_range.imp fun {j k} hjk => ?_⟩
    refine List.disjoint_left.mpr fun i hij hik => ?_
    have hj := inos_bounds (node j) hij
    have hk := inos_bounds (node k) hik
    have hle : (j + 1) * 512 ^ h ≤ k * 512 ^ h := Nat.mul_le_mul_right _ hjk
    rw [Nat.succ_mul] at hle
    omega

namespace Image

theorem mem_claimed : b ∈ s.claimed table ↔
    Owns table b ∨ ∃ i ∈ inos table 0, Owns (s.inodes i).file.root b := by
  have hblocks : ∀ l : List ℕ, b ∈ (s.blocks l).map Prod.snd ↔
      ∃ i ∈ l, Owns (s.inodes i).file.root b := by
    intro l
    induction l with
    | nil => simp [blocks]
    | cons i l ih =>
      rw [blocks, List.map_cons, List.sum_cons, Multiset.map_add, Multiset.mem_add]
      rw [blocks] at ih
      rw [ih]
      simp only [List.mem_cons, exists_eq_or_imp]
      rfl
  rw [claimed, Multiset.map_add, Multiset.mem_add, hblocks]
  rfl

/-- The crawl of a consistent image sets the bits of the blocks that are used, and counts the
inodes. -/
theorem Consistent.crawled {low high : ℕ} (hs : s.Consistent table low high) :
    Scan.Adds .start (· ∈ s.claimed table) (inos table 0).length
      ((inos table 0).countP fun i => ¬(s.inodes i).IsFree)
      (Scan.inodeTableCrawlRecursive s.inodes table 0 .start) := by
  refine (Scan.adds_inodeTableCrawlRecursive table).congr (fun b => ?_) rfl rfl
  rw [mem_claimed]
  refine or_congr_right ⟨?_, ?_⟩
  · rintro ⟨i, hi, -, hb⟩
    exact ⟨i, hi, hb⟩
  · rintro ⟨i, hi, hb⟩
    refine ⟨i, hi, fun hfree => ?_, hb⟩
    rw [hs.free i hi hfree] at hb
    exact not_owns_null hb

theorem blocks_append (l₁ l₂ : List ℕ) : s.blocks (l₁ ++ l₂) = s.blocks l₁ + s.blocks l₂ := by
  rw [blocks, List.map_append, List.sum_append, blocks, blocks]

/-- What some inodes have lost is what all of them have lost, if the others are as they were. -/
theorem blocks_of_others {l₁ l₂ : List ℕ} (h₁ : l₁.Nodup) (h₂ : l₂.Nodup) (hsub : ∀ i ∈ l₁, i ∈ l₂)
    (hothers : ∀ i, i ∉ l₁ → s'.inodes i = s.inodes i)
    (hlost : (out : Multiset (ℕ × ℕ)) + s'.blocks l₁ = s.blocks l₁) :
    (out : Multiset (ℕ × ℕ)) + s'.blocks l₂ = s.blocks l₂ := by
  have hperm : l₂.Perm (l₁ ++ l₂.filter (· ∉ l₁)) := by
    refine (List.perm_ext_iff_of_nodup h₂ ?_).mpr fun i => ?_
    · refine List.nodup_append.mpr ⟨h₁, h₂.filter _, fun i hi j hj hij => ?_⟩
      subst hij
      simp [hi] at hj
    · have := hsub i
      simp only [List.mem_append, List.mem_filter, decide_eq_true_eq]
      tauto
  have hsplit : ∀ t : Image, t.blocks l₂ = t.blocks l₁ + t.blocks (l₂.filter (· ∉ l₁)) := by
    intro t
    rw [← blocks_append]
    exact (hperm.map _).sum_eq
  have hrest : s'.blocks (l₂.filter (· ∉ l₁)) = s.blocks (l₂.filter (· ∉ l₁)) :=
    blocks_congr fun i hi => hothers i (by simpa using (List.mem_filter.mp hi).2)
  rw [hsplit, hsplit, hrest, ← add_assoc, hlost]

/-- An image that recovery can deal with: it is consistent, and the inodes on its list are in the
table. -/
structure Recoverable (u : Support) (s : Image) (table : Slot h) (low high : ℕ) (l : List ℕ) :
    Prop where
  consistent : s.Consistent table low high
  list : Linked s.next 0 s.head l
  inTable : ∀ i ∈ l, i ∈ inos table 0
  sane : ∀ i ∈ l, ¬(s.inodes i).IsFree → (s.inodes i).Sane
  seconds : u.seconds ≠ 0

/-- What recovery makes of it, with what was given back. -/
structure Recovered (u : Support) (s : Image) (table : Slot h) (low high : ℕ) (l : List ℕ)
    (out : List (ℕ × ℕ)) (s' : Image) : Prop where
  head : s'.head = 0
  others : ∀ i, i ∉ reached u s l → s'.inodes i = s.inodes i
  claimed : ((out.map Prod.snd : List ℕ) : Multiset ℕ) + s'.claimed table = s.claimed table
  consistent : s'.Consistent table low high

/-- After recovery the image is consistent, and what left its trees is what recovery gave back. -/
theorem Recoverable.recovered {low high : ℕ} (h : s.Recoverable u table low high l) :
    ∃ out s', s.pmfsRecoverTruncateList u l.length = some (out, s') ∧
      Recovered u s table low high l out s' := by
  obtain ⟨hs, hlist, hin, hsane, hseconds⟩ := h
  obtain ⟨out, s', hloop, hwalk⟩ := recoverLoop_walked hlist hsane hseconds
  refine ⟨out, { s' with head := 0 }, ?_, ?_⟩
  · rw [pmfsRecoverTruncateList, hloop]
    rfl
  have htable : (inos table 0).Nodup := inos_nodup table
  have hblocks := blocks_of_others (hlist.nodup.sublist (List.takeWhile_sublist _)) htable
    (fun i hi => hin i (reached_subset hi)) hwalk.others hwalk.entries
  have hclaimed : ((out.map Prod.snd : List ℕ) : Multiset ℕ) +
      ({ s' with head := 0 } : Image).claimed table = s.claimed table := by
    rw [Image.claimed, Image.claimed, ← hblocks, ← Multiset.map_coe, ← Multiset.map_add]
    change Multiset.map _ (_ + (_ + s'.blocks _)) = _
    rw [add_left_comm]
  have hle : ({ s' with head := 0 } : Image).claimed table ≤ s.claimed table :=
    hclaimed ▸ Multiset.le_add_left _ _
  refine ⟨rfl, hwalk.others, hclaimed, hs.root, Multiset.nodup_of_le hle hs.nodup,
    fun b hb => hs.bounds b (Multiset.mem_of_le hle hb), fun i hi hfree => ?_⟩
  by_cases hreached : i ∈ reached u s l
  · exact hwalk.free i hreached hfree
  · dsimp only at hfree ⊢
    rw [hwalk.others i hreached] at hfree ⊢
    exact hs.free i hi hfree

end Image

/-! ## The bins -/

section Bins

variable {sbi sbi' : BinAlloc}

theorem foldlM_kept {α β : Type} {f : α → β → Option α} {P : α → Prop}
    (hf : ∀ a x a', P a → f a x = some a' → P a') {l : List β} {a a' : α} (ha : P a)
    (hrun : l.foldlM f a = some a') : P a' := by
  induction l generalizing a with
  | nil => exact Option.some.inj hrun ▸ ha
  | cons x l ih =>
    rw [List.foldlM_cons] at hrun
    obtain ⟨a₁, hfirst, hrest⟩ := Option.bind_eq_some_iff.mp hrun
    exact ih (hf a x a₁ ha hfirst) hrest

/-- The free blocks are those in the bins, and they are counted. -/
structure Counted (sbi : BinAlloc) : Prop where
  bins : sbi.blockBins ≠ []
  count : sbi.numFreeBlocks = sbi.blockBins.flatten.length

theorem Counted.freeBlock (hs : Counted sbi)
    (hfree : sbi.wpmfsFreeBlock power cnter b .b4K = some sbi') : Counted sbi' := by
  obtain ⟨hbins, hperm, -⟩ := BinAlloc.wpmfsFreeBlock_spec hs.bins hfree
  refine ⟨hbins, ?_⟩
  rw [hperm.length_eq, List.length_cons, ← hs.count]
  rw [BinAlloc.wpmfsFreeBlock] at hfree
  split at hfree
  · cases hfree
  · rw [← Option.some.inj hfree]
    rfl

theorem Counted.tryFree (hs : Counted sbi)
    (hfree : BinAlloc.wpmfsTryFreeBlock power cnter sbi b = some sbi') : Counted sbi' := by
  rw [BinAlloc.wpmfsTryFreeBlock] at hfree
  split at hfree
  · exact Option.some.inj hfree ▸ hs
  · exact hs.freeBlock hfree

/-- The blocks of a list are freed, and their pages are marked. -/
theorem freeBlocks_spec (hbins : sbi.blockBins ≠ [])
    (hfree : ∀ b ∈ l, BinAlloc.Freeable power cnter b) :
    ∃ sbi', l.foldlM (fun sbi b => sbi.wpmfsFreeBlock power cnter b .b4K) sbi = some sbi' ∧
      sbi'.blockBins ≠ [] ∧ sbi'.blockBins.flatten.Perm (l ++ sbi.blockBins.flatten) ∧
      ∀ b, (sbi'.pageMarks b).pageUsing = true ↔ (sbi.pageMarks b).pageUsing = true ∨ b ∈ l := by
  induction l generalizing sbi with
  | nil => exact ⟨sbi, rfl, hbins, .refl _, fun b => by simp⟩
  | cons c l ih =>
    obtain ⟨sbi₁, hfirst⟩ : ∃ sbi₁, sbi.wpmfsFreeBlock power cnter c .b4K = some sbi₁ :=
      (BinAlloc.wpmfsFreeBlock_some_iff hbins).mpr (hfree c (List.mem_cons_self ..))
    obtain ⟨hbins₁, hperm₁, hmarks₁⟩ := BinAlloc.wpmfsFreeBlock_spec hbins hfirst
    obtain ⟨sbi', hrest, hbins', hperm, hmarks⟩ :=
      ih hbins₁ fun b hb => hfree b (List.mem_cons_of_mem _ hb)
    refine ⟨sbi', ?_, hbins', (hperm.trans (hperm₁.append_left l)).trans List.perm_middle,
      fun b => ?_⟩
    · rw [List.foldlM_cons, hfirst]
      exact hrest
    · rw [hmarks, hmarks₁, List.mem_cons]
      by_cases hbc : b = c
      · simp [hbc]
      · simp [hbc]

/-- The rebuild frees the blocks whose bit is clear and whose page is not marked. -/
theorem wpmfsSetupBlocknodeMap_spec {bitmap : ℕ → Bool} (hbins : sbi.blockBins ≠ [])
    (hclear : ∃ b, 1 ≤ b ∧ b < bitmapBits initsize ∧ bitmap b = false)
    (hcnter : ∀ b < bitmapBits initsize, 0 ≤ toInt ((cnter b).toNat / getIntThresSize power)) :
    ∃ sbi', sbi.wpmfsSetupBlocknodeMap power cnter bitmap initsize = some sbi' ∧
      sbi'.blockBins.flatten.Perm
        (sbi.unmarked (BinAlloc.clearBits bitmap (bitmapBits initsize) 1) ++
          sbi.blockBins.flatten) ∧
      (4096 ∣ initsize → Counted sbi → Counted sbi') := by
  generalize ht : BinAlloc.wpmfsInitBlockmap { sbi with
    blockStart := 0
    blockEnd := initsize / 4096
    numFreeBlocks := sbi.numFreeBlocks + initsize / 4096 } initsize = t
  have hrun : sbi.wpmfsSetupBlocknodeMap power cnter bitmap initsize =
      (BinAlloc.visited bitmap (bitmapBits initsize)).foldlM
        (BinAlloc.wpmfsTryFreeBlock power cnter) t := by
    rw [← ht]
    refine BinAlloc.wpmfsBuildBlocknodeMap_eq _ ?_
    omega
  have htbins : t.blockBins = sbi.blockBins := by rw [← ht]; rfl
  have htmarks : ∀ l, t.unmarked l = sbi.unmarked l := fun l => by rw [← ht]; rfl
  have hne : BinAlloc.clearBits bitmap (bitmapBits initsize) 1 ≠ [] := by
    obtain ⟨b, hb⟩ := hclear
    exact List.ne_nil_of_mem (BinAlloc.mem_clearBits.mpr hb)
  have hvisited : BinAlloc.visited bitmap (bitmapBits initsize) =
      BinAlloc.clearBits bitmap (bitmapBits initsize) 1 := if_neg hne
  have hnodup := @BinAlloc.visited_nodup bitmap (bitmapBits initsize)
  rw [hvisited] at hrun hnodup
  have hfreeable : ∀ b ∈ t.unmarked (BinAlloc.clearBits bitmap (bitmapBits initsize) 1),
      BinAlloc.Freeable power cnter b := by
    intro b hb
    obtain ⟨hpos, hlt, -⟩ := BinAlloc.mem_clearBits.mp (BinAlloc.mem_unmarked.mp hb).1
    exact ⟨by omega, hcnter b hlt⟩
  obtain ⟨sbi', hsome⟩ := (BinAlloc.tryFree_some_iff (htbins ▸ hbins) hnodup).mpr hfreeable
  have hperm := BinAlloc.tryFree_perm (htbins ▸ hbins) hnodup hsome
  rw [htmarks, htbins] at hperm
  refine ⟨sbi', hrun.trans hsome, hperm, fun halign hs => ?_⟩
  have hcounted : Counted t := by
    refine ⟨htbins ▸ hbins, ?_⟩
    rw [htbins, ← hs.count, ← ht, BinAlloc.wpmfsInitBlockmap, reservedBlocks]
    dsimp only
    omega
  exact foldlM_kept (fun _ _ _ ha => ha.tryFree) hcounted hsome

/-- What recovery gives back was used before, and is not used any more. -/
theorem Image.Recovered.given_back {low high : ℕ} (h : Image.Recovered u s table low high l out s')
    (hs : s.Consistent table low high) : (out.map Prod.snd).Nodup ∧
      ∀ b ∈ out.map Prod.snd, b ∈ s.claimed table ∧ b ∉ s'.claimed table := by
  have hnodup := hs.nodup
  rw [← h.claimed, Multiset.nodup_add, Multiset.coe_nodup] at hnodup
  refine ⟨hnodup.1, fun b hb => ⟨?_, ?_⟩⟩
  · rw [← h.claimed]
    exact Multiset.mem_add.mpr (.inl hb)
  · exact Multiset.disjoint_left.mp hnodup.2.2 (Multiset.mem_coe.mpr hb)

/-- The inode 384 has lost its name and owns the block 7. The table has the block 1. -/
def losing : Image where
  inodes i :=
    if i = 384 then ⟨0, 0, false, false, ⟨0, .data 7, 1, 1, false, 0x8000⟩, 0, 0⟩
    else ⟨0, 0, false, false, ⟨0, .null, 0, 0, false, 0⟩, 0, 0⟩
  head := 384

theorem claimed_losing : losing.claimed (.data 1) = {1, 7} := by
  decide

theorem recoverable_losing :
    losing.Recoverable ⟨fun _ => true, fun _ => true, 9⟩ (.data 1) 1 16 [384] := by
  refine ⟨⟨fun h => (by cases h), ?_, ?_, fun i hi hfree => ?_⟩, ⟨rfl, by decide, rfl⟩, by decide,
    fun i hi _ => ?_, by decide⟩
  · rw [claimed_losing]
    decide
  · rw [claimed_losing]
    decide
  · by_cases h : i = 384
    · subst h
      exact absurd hfree (by decide)
    · have hnull : losing.inodes i =
          ⟨0, 0, false, false, ⟨0, .null, 0, 0, false, 0⟩, 0, 0⟩ := if_neg h
      rw [hnull]
  · obtain rfl := List.mem_singleton.mp hi
    exact ⟨fun _ => Image.sane_byte, fun h => absurd h (by decide)⟩

end Bins

/-! ## The list of ranges -/

section Ranges

variable {sbi : RangeAlloc}

/-- Before the list is made no block can be freed. -/
theorem freeBlocks_eq_none (hempty : sbi.blockInuse = []) (hl : l ≠ []) :
    l.foldlM (fun sbi b => (sbi.pmfsFreeBlock b .b4K none true).map Prod.fst) sbi = none := by
  cases l with
  | nil => exact absurd rfl hl
  | cons b l =>
    have hbug : sbi.pmfsFreeBlock b .b4K none true = none := if_pos hempty
    rw [List.foldlM_cons, hbug]
    rfl

theorem Image.pmfsClearDatablockInode_of_ne (hi : i ≠ blocknodeIn0) :
    (s.pmfsClearDatablockInode u).inodes i = s.inodes i := by
  rw [pmfsClearDatablockInode]
  split
  · rfl
  · exact Function.update_of_ne hi ..

theorem Image.pmfsClearDatablockInode_self :
    (s.pmfsClearDatablockInode u).inodes blocknodeIn0 = s.inodes blocknodeIn0 ∨
      ((s.pmfsClearDatablockInode u).inodes blocknodeIn0).file = ⟨0, .null, 0, 0, false, 0⟩ := by
  by_cases htrans : u.newTransaction blocknodeIn0 = false
  · exact .inl (by rw [pmfsClearDatablockInode, if_pos htrans])
  · refine .inr ?_
    rw [pmfsClearDatablockInode, if_neg htrans]
    dsimp only
    rw [Function.update_self]

/-- Where the inode for the saved list is free, there is nothing to clear. -/
theorem Image.Consistent.cleared {low high : ℕ} (hs : s.Consistent table low high)
    (hfree : (s.inodes blocknodeIn0).IsFree) :
    (s.pmfsClearDatablockInode u).claimed table = s.claimed table ∧
      (s.pmfsClearDatablockInode u).Consistent table low high := by
  have hroot : ∀ i ∈ inos table 0, ((s.pmfsClearDatablockInode u).inodes i).IsFree →
      ((s.pmfsClearDatablockInode u).inodes i).file.root = .null := by
    intro i hi
    by_cases hne : i = blocknodeIn0
    · subst hne
      rcases pmfsClearDatablockInode_self (u := u) (s := s) with hself | hself
      · rw [hself]
        exact hs.free _ hi
      · rw [hself]
        exact fun _ => rfl
    · rw [pmfsClearDatablockInode_of_ne hne]
      exact hs.free i hi
  have hentries : ∀ i ∈ inos table 0, ((s.pmfsClearDatablockInode u).inodes i).file.root.entries =
      (s.inodes i).file.root.entries := by
    intro i hi
    by_cases hne : i = blocknodeIn0
    · subst hne
      rcases pmfsClearDatablockInode_self (u := u) (s := s) with hself | hself
      · rw [hself]
      · rw [hself, hs.free _ hi hfree, Slot.entries_null, Slot.entries_null]
    · rw [pmfsClearDatablockInode_of_ne hne]
  have hclaimed : (s.pmfsClearDatablockInode u).claimed table = s.claimed table := by
    rw [claimed, claimed, blocks, blocks, List.map_congr_left hentries]
  exact ⟨hclaimed, hs.root, hclaimed ▸ hs.nodup, hclaimed ▸ hs.bounds, hroot⟩

end Ranges

end Wpmfs.Mount
