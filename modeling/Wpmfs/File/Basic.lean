import Mathlib.Algebra.BigOperators.Group.Finset.Basic
import Mathlib.Algebra.Order.Ring.Int
import Mathlib.Algebra.Order.Ring.Nat
import Mathlib.Logic.Function.Basic

/-!
# Regular files

The block tree of a file, its size, and the flag that tells of blocks past the end. Blocks are of
4096 bytes. A page of pointers has 512 of them, and a page that the allocator has got back, or has
not handed out, is in no tree.

Left out are the times, the journal, and the locks.
-/

namespace Wpmfs.File

/-- The errors of calls, without the sign; `other` is for the errors of code outside of the file
system. -/
inductive Error where
  | enospc
  | enomem
  | efault
  | enodata
  | enxio
  | other (code : ℕ)
deriving DecidableEq

/-- A pointer that many levels above the blocks, with what is behind it. -/
inductive Slot : ℕ → Type
  | null {h : ℕ} : Slot h
  | data (blockoff : ℕ) : Slot 0
  | page {h : ℕ} (blockoff : ℕ) (node : ℕ → Slot h) : Slot (h + 1)

namespace Slot

def isNull {h : ℕ} : Slot h → Bool
  | null => true
  | _ => false

/-- The loop of `__pmfs_find_data_block`; there is no block behind a null pointer. -/
def find : {h : ℕ} → Slot h → ℕ → Option ℕ
  | _, null, _ => none
  | _, data blockoff, _ => some blockoff
  | h + 1, page _ node, blocknr => (node (blocknr / 512 ^ h)).find (blocknr % 512 ^ h)

/-- `pmfs_inode_count_iblocks_recursive`. -/
def countIblocks : {h : ℕ} → Slot h → ℕ
  | _, null => 0
  | _, data _ => 1
  | _, page _ node => ∑ i ∈ Finset.range 512, (node i).countIblocks

end Slot

end Wpmfs.File

/-- A file. The root is that many levels above the blocks. -/
structure Wpmfs.File where
  height : ℕ
  root : File.Slot height
  iSize : ℕ
  iBlocks : ℕ
  eofblocks : Bool
  iMode : ℕ

namespace Wpmfs.File

/-- `pmfs_find_data_block`. -/
def pmfsFindDataBlock (f : File) (blocknr : ℕ) : Option ℕ :=
  if 512 ^ f.height ≤ blocknr then none else f.root.find blocknr

/-- The loops that count levels: how often `n` is shifted by `META_BLK_SHIFT` until it is 0. -/
def levelsFrom : (fuel n : ℕ) → ℕ
  | 0, _ => 0
  | fuel + 1, n => if n = 0 then 0 else levelsFrom fuel (n / 512) + 1

def levels (n : ℕ) : ℕ := levelsFrom n n

/-! ## Allocation -/

/-- The allocator and the memory: what the allocator says to each request still to come, for a block
of data or for a page of pointers, what it has given, with the level of the pointer it was for, and
the bytes of the blocks. Blocks are named by their offset. -/
structure Env where
  data : ℕ → Except Error ℕ
  node : ℕ → Except Error ℕ
  got : List (ℕ × ℕ)
  mem : ℕ → ℕ → UInt8

/-- What an allocation works on beside the tree. -/
structure Heap extends Env where
  iBlocks : ℕ
  eofblocks : Bool

namespace Heap

/-- `pmfs_new_data_block`. -/
def pmfsNewDataBlock (zero : Bool) (s : Heap) : Except Error ℕ × Heap :=
  let t : Heap := { s with data := fun n => s.data (n + 1) }
  match s.data 0 with
  | .error e => (.error e, t)
  | .ok b =>
    let mem := if zero then Function.update s.mem b fun _ => 0 else s.mem
    (.ok b, { t with got := (0, b) :: s.got, mem := mem, iBlocks := s.iBlocks + 1 })

/-- `Allocator.pmfs_new_block` for a page of pointers, for a pointer of the level `l`. -/
def pmfsNewBlock (l : ℕ) (s : Heap) : Except Error ℕ × Heap :=
  let t : Heap := { s with node := fun n => s.node (n + 1) }
  match s.node 0 with
  | .error e => (.error e, t)
  | .ok b => (.ok b, { t with got := (l, b) :: s.got })

end Heap

/-- What an allocation leaves. -/
structure Alloc (α : Type) where
  val : α
  errval : Option Error
  heap : Heap

/-- The loop of `recursive_alloc_blocks`, over `n` slots from `i` on. -/
def allocSlots {h : ℕ} (slot : ℕ → Slot h → Heap → Alloc (Slot h)) :
    (n i : ℕ) → (ℕ → Slot h) → Heap → Alloc (ℕ → Slot h)
  | 0, _, node, s => ⟨node, none, s⟩
  | n + 1, i, node, s =>
    let r := slot i (node i) s
    let node := Function.update node i r.val
    match r.errval with
    | none => allocSlots slot n (i + 1) node r.heap
    | some e => ⟨node, some e, r.heap⟩

/-- A slot of a page of the last level. A failure sets `PMFS_EOFBLOCKS_FL`. -/
def allocData (zero : Bool) (slot : Slot 0) (s : Heap) : Alloc (Slot 0) :=
  if slot.isNull then
    match s.pmfsNewDataBlock zero with
    | (.ok b, s) => ⟨.data b, none, s⟩
    | (.error e, s) => ⟨slot, some e, { s with eofblocks := true }⟩
  else ⟨slot, none, s⟩

/-- `recursive_alloc_blocks` below a page. -/
def recursiveAllocBlocks (zero : Bool) : (h : ℕ) → (ℕ → Slot h) → (first last : ℕ) → Heap →
    Alloc (ℕ → Slot h)
  | 0, node, first, last, s => allocSlots (fun _ => allocData zero) (last + 1 - first) first node s
  | h + 1, node, first, last, s =>
    let firstIndex := first / 512 ^ (h + 1)
    let lastIndex := last / 512 ^ (h + 1)
    let slot := fun i (slot : Slot (h + 1)) s =>
      let firstBlk := if i = firstIndex then first % 512 ^ (h + 1) else 0
      let lastBlk := if i = lastIndex then last % 512 ^ (h + 1) else 512 ^ (h + 1) - 1
      let descend := fun b (node : ℕ → Slot h) s =>
        let r := recursiveAllocBlocks zero h node firstBlk lastBlk s
        (⟨.page b r.val, r.errval, r.heap⟩ : Alloc (Slot (h + 1)))
      match slot with
      | .page b node => descend b node s
      | .null =>
        match s.pmfsNewBlock (h + 1) with
        | (.ok b, s) => descend b (fun _ => .null) s
        | (.error e, s) => ⟨.null, some e, s⟩
    allocSlots slot (lastIndex + 1 - firstIndex) firstIndex node s

/-- `pmfs_increase_btree_height` by `n` levels. Where it fails, the levels before stay. -/
def pmfsIncreaseBtreeHeight : (n h : ℕ) → Slot h → Heap →
    Option Error × ((h : ℕ) × Slot h) × Heap
  | 0, h, root, s => (none, ⟨h, root⟩, s)
  | n + 1, h, root, s =>
    match s.pmfsNewBlock (h + 1) with
    | (.ok b, s) =>
      pmfsIncreaseBtreeHeight n (h + 1) (.page b fun i => if i = 0 then root else .null) s
    | (.error e, s) => (some e, ⟨h, root⟩, s)

/-- The call of `recursive_alloc_blocks` for the whole tree; `none` is a null pointer. -/
def allocTree (zero : Bool) (first last : ℕ) : (h : ℕ) → Slot h → Heap →
    Option (Option Error × ((h : ℕ) × Slot h) × Heap)
  | h + 1, .page b node, s =>
    let r := recursiveAllocBlocks zero h node first last s
    some (r.errval, ⟨h + 1, .page b r.val⟩, r.heap)
  | _, _, _ => none

/-- The allocation in a tree that stays without pages of pointers. -/
def allocRoot (zero : Bool) (h : ℕ) (root : Slot h) (s : Heap) :
    Option Error × ((h : ℕ) × Slot h) × Heap :=
  if root.isNull then
    match s.pmfsNewDataBlock zero with
    | (.ok b, s) => (none, ⟨0, .data b⟩, s)
    | (.error e, s) => (some e, ⟨h, root⟩, s)
  else (none, ⟨h, root⟩, s)

/-- The height that a tree of the height `h` has to have for the block `last`. -/
def heightFor (h last : ℕ) : ℕ :=
  if 512 ^ h - 1 < last then h + levels (last / 512 ^ h) else h

def heap (f : File) (s : Env) : Heap := { s with iBlocks := f.iBlocks, eofblocks := f.eofblocks }

def setTree (f : File) (t : (h : ℕ) × Slot h) (s : Heap) : File :=
  { f with height := t.1, root := t.2, iBlocks := s.iBlocks, eofblocks := s.eofblocks }

/-- `__pmfs_alloc_blocks` for `num` blocks, which is below 2^32. -/
def pmfsAllocBlocks (f : File) (blocknr num : ℕ) (zero : Bool) (s : Env) :
    Option (Option Error × File × Env) :=
  let first := blocknr
  let last := blocknr + num - 1
  let height := heightFor f.height last
  if 512 ^ f.height - 1 < last ∧ 3 < height then some (some .enospc, f, s)
  else
    let r :=
      if height = 0 then some (allocRoot zero f.height f.root (f.heap s))
      else
        match pmfsIncreaseBtreeHeight (height - f.height) f.height f.root (f.heap s) with
        | (none, t, s) => allocTree zero first last t.1 t.2 s
        | r => some r
    r.map fun (errval, t, s) => (errval, f.setTree t s, s.toEnv)

/-! ## Truncation -/

/-- What the loop of `recursive_truncate_blocks` carries along. What it gives to the allocator is
recorded with the level of the pointer to it. -/
structure Sweep (h : ℕ) where
  node : ℕ → Slot h
  freed : List (ℕ × ℕ)
  start : ℕ
  stop : ℕ
  allRangeFreed : Bool

/-- One slot: what is behind it is freed, or some of it is left. -/
def truncateSlot {h : ℕ} (sub : ℕ → Slot h → List (ℕ × ℕ) × Bool × Slot h)
    (firstIndex lastIndex i : ℕ) (w : Sweep h) : Sweep h :=
  if (w.node i).isNull then w
  else
    match sub i (w.node i) with
    | (freed, true, _) => { w with freed := freed ++ w.freed }
    | (freed, false, c) =>
      { node := Function.update w.node i c
        freed := freed ++ w.freed
        start := if i = firstIndex then w.start + 1 else w.start
        stop := if i ≠ firstIndex ∧ i = lastIndex then w.stop - 1 else w.stop
        allRangeFreed := false }

/-- The loop, over `n` slots from `i` on. -/
def truncateSlots {h : ℕ} (sub : ℕ → Slot h → List (ℕ × ℕ) × Bool × Slot h)
    (firstIndex lastIndex : ℕ) : (n i : ℕ) → Sweep h → Sweep h
  | 0, _, w => w
  | n + 1, i, w =>
    truncateSlots sub firstIndex lastIndex n (i + 1) (truncateSlot sub firstIndex lastIndex i w)

/-- `is_empty_meta_block`. -/
def isEmptyMetaBlock {h : ℕ} (node : ℕ → Slot h) (startIdx endIdx : ℕ) : Bool :=
  (List.range 512).all fun i => decide (startIdx ≤ i ∧ i ≤ endIdx) || (node i).isNull

/-- A page is swept: it is empty then, or the slots of the range that are left are cleared. -/
def truncatePage {h : ℕ} (sub : ℕ → Slot h → List (ℕ × ℕ) × Bool × Slot h) (node : ℕ → Slot h)
    (firstIndex lastIndex : ℕ) : List (ℕ × ℕ) × Bool × (ℕ → Slot h) :=
  let w := truncateSlots sub firstIndex lastIndex (lastIndex + 1 - firstIndex) firstIndex
    ⟨node, [], firstIndex, lastIndex, true⟩
  if w.allRangeFreed && isEmptyMetaBlock w.node firstIndex lastIndex then (w.freed, true, w.node)
  else (w.freed, false, fun i => if w.start ≤ i ∧ i ≤ w.stop then .null else w.node i)

/-- The data block behind a slot is freed. -/
def truncateData : Slot 0 → List (ℕ × ℕ) × Bool × Slot 0
  | .data b => ([(0, b)], true, .data b)
  | .null => ([], true, .null)

/-- A child that is empty is freed. -/
def truncateChild {h : ℕ} (b : ℕ) (node : ℕ → Slot h) :
    List (ℕ × ℕ) × Bool × (ℕ → Slot h) → List (ℕ × ℕ) × Bool × Slot (h + 1)
  | (freed, true, _) => ((h + 1, b) :: freed, true, .page b node)
  | (freed, false, node) => (freed, false, .page b node)

/-- `recursive_truncate_blocks` below a page: what is freed, whether the page is empty then, and the
page. -/
def recursiveTruncateBlocks : (h : ℕ) → (ℕ → Slot h) → (first last : ℕ) →
    List (ℕ × ℕ) × Bool × (ℕ → Slot h)
  | 0, node, first, last => truncatePage (fun _ => truncateData) node first last
  | h + 1, node, first, last =>
    let firstIndex := first / 512 ^ (h + 1)
    let lastIndex := last / 512 ^ (h + 1)
    let sub := fun i (c : Slot (h + 1)) =>
      let firstBlk := if i = firstIndex then first % 512 ^ (h + 1) else 0
      let lastBlk := if i = lastIndex then last % 512 ^ (h + 1) else 512 ^ (h + 1) - 1
      match c with
      | .null => ([], true, .null)
      | .page b node => truncateChild b node (recursiveTruncateBlocks h node firstBlk lastBlk)
    truncatePage sub node firstIndex lastIndex

def pmfsSparseLastBlocknr (height lastBlocknr : ℕ) : ℕ :=
  if 512 ^ height ≤ lastBlocknr then 512 ^ height - 1 else lastBlocknr

/-- The loop of `pmfs_decrease_btree_height`, from the height `h` and the new root down to
`newHeight`; `none` is a null pointer. -/
def lowerRoot (newHeight : ℕ) : (h : ℕ) → Slot h → List (ℕ × ℕ) →
    Option (List (ℕ × ℕ) × ((h : ℕ) × Slot h))
  | 0, root, freed => some (freed, ⟨0, root⟩)
  | h + 1, root, freed =>
    if h + 1 ≤ newHeight then some (freed, ⟨h + 1, root⟩)
    else
      match root with
      | .null => none
      | .page b node => lowerRoot newHeight h (node 0) ((h + 1, b) :: freed)

/-- `pmfs_decrease_btree_height` for a tree with `root` in the inode, and `newroot`: what is freed,
and the tree. Where there is a `BUG_ON` or a null pointer, nothing is returned, and neither where
the new height is above the old one, as no truncation has it. -/
def pmfsDecreaseBtreeHeight (iBlocks newsize : ℕ) {h : ℕ} (root newroot : Slot h) :
    Option (List (ℕ × ℕ) × ((h : ℕ) × Slot h)) :=
  if iBlocks = 0 ∨ newsize = 0 then
    if newroot.isNull then some ([], ⟨0, .null⟩) else none
  else
    let newHeight := levels ((newsize + 4095) / 4096 - 1)
    if h = newHeight then some ([], ⟨h, root⟩)
    else if h < newHeight then none
    else lowerRoot newHeight h newroot []

def checkEofBlocks (f : File) (size : ℕ) : File :=
  if f.eofblocks ∧ f.iBlocks * 4096 < size + 4096 then { f with eofblocks := false } else f

/-- The steps of `__pmfs_truncate_blocks` on the tree: what is freed, the new root, and what is
behind the old one. -/
def truncateTree (first last : ℕ) : (h : ℕ) → Slot h → List (ℕ × ℕ) × Slot h × Slot h
  | 0, .data b => ([(0, b)], .null, .data b)
  | h + 1, .page b node =>
    match recursiveTruncateBlocks h node first last with
    | (freed, true, node) => ((h + 1, b) :: freed, .null, .page b node)
    | (freed, false, node) => (freed, .page b node, .page b node)
  | _, .null => ([], .null, .null)

/-- The first block that is truncated. -/
def truncateFirst (start : ℕ) : ℕ := (start + 4095) / 4096

/-- The last one; `none` if there is nothing to truncate. -/
def truncateLast (f : File) (stop : ℕ) : Option ℕ :=
  if f.eofblocks then some (512 ^ f.height - 1)
  else if stop = 0 then none
  else some (pmfsSparseLastBlocknr f.height ((stop - 1) / 4096))

/-- `__pmfs_truncate_blocks`, with `i_size` set already: what it gives to the allocator, and the
file. There are at least as many blocks as are freed. -/
def pmfsTruncateBlocks (mounting : Bool) (f : File) (start stop : ℕ) :
    Option (List (ℕ × ℕ) × File) :=
  if f.root.isNull then some ([], f)
  else
    match f.truncateLast stop with
    | none => some ([], f)
    | some last =>
      if last < truncateFirst start then some ([], f)
      else
        let (freed, newroot, root) := truncateTree (truncateFirst start) last f.height f.root
        let iBlocks :=
          if mounting then newroot.countIblocks
          else f.iBlocks - freed.countP fun p => p.1 = 0
        (pmfsDecreaseBtreeHeight iBlocks start root newroot).map fun (freed', t) =>
          (freed' ++ freed,
            checkEofBlocks { f with height := t.1, root := t.2, iBlocks := iBlocks } f.iSize)

/-- `pmfs_setsize`, without the bytes that it clears. -/
def pmfsSetsize (f : File) (newsize : ℕ) : Option (List (ℕ × ℕ) × File) :=
  pmfsTruncateBlocks false { f with iSize := newsize } newsize f.iSize

/-- The part of `pmfs_notify_change` that changes the size. -/
def pmfsNotifyChange (f : File) (size : ℕ) : Option (List (ℕ × ℕ) × File) :=
  if size ≠ f.iSize ∨ f.eofblocks then pmfsSetsize f size else some ([], f)

/-! ## Eviction -/

/-- The last block number that `pmfs_evict_inode` passes on. -/
def evictLastBlocknr (f : File) : ℕ :=
  if f.eofblocks then 512 ^ f.height - 1
  else pmfsSparseLastBlocknr f.height (if f.iSize ≠ 0 then (f.iSize - 1) / 4096 else 0)

/-- `pmfs_free_inode_subtree`: whether it comes past its `BUG_ON`. -/
def pmfsFreeInodeSubtree (lastBlocknr : ℕ) : (h : ℕ) → Slot h → Bool
  | h + 1, .page _ node => (recursiveTruncateBlocks h node 0 lastBlocknr).2.1
  | _, _ => true

/-- `pmfs_fallocate`. -/
def pmfsFallocate (f : File) (keepSize : Bool) (offset len : ℕ) (trans : Option Error) (s : Env) :
    Option (Option Error × File × Env) :=
  match trans with
  | some e => some (some e, f, s)
  | none =>
    let newSize := len + offset
    let numBlocks := (offset % 4096 + len + 4095) / 4096
    (pmfsAllocBlocks f (offset / 4096) numBlocks true s).map fun (ret, f, s) =>
      let f := if ret.isSome ∨ keepSize then { f with eofblocks := true } else f
      (ret, if !keepSize ∧ f.iSize < newSize then { f with iSize := newSize } else f, s)

end Wpmfs.File
