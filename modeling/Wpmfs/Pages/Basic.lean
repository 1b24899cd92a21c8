import Wpmfs.File.Basic
import Wpmfs.Journal.Rollback
import Wpmfs.Library.Bytes

/-!
# Block trees in memory

The block tree of an inode as bytes of persistent memory, and how `__pmfs_alloc_blocks` lets it grow
under a transaction. Memory is addressed by block offsets. An inode is the address of its
`struct pmfs_inode`, whose first 48 bytes hold the height, the root, the size and the block count of
the tree; a page of the tree has 512 pointers of 8 bytes. Blocks are of 4096 bytes and lie in the
direct area.

The allocator is the list of the blocks that it is going to hand out. What it keeps in free blocks,
the marks of pages, and wear-leveling are left out.
-/

namespace Wpmfs.Pages

open Bytes Persist Journal

abbrev Mem := ℕ → UInt8

inductive Errno where
  | einval
  | eio
  | enospc
deriving DecidableEq, Repr

/-- What a thread works on: memory and the journal, its open transaction, and the blocks that
`Allocator.pmfs_new_block` gives to it one after another. -/
structure Tx where
  image : Image
  trans : Transaction
  free : List ℕ

def Tx.mem (s : Tx) : Mem := s.image.mem

/-- Stores to memory. -/
def Tx.store (s : Tx) (f : Mem → Mem) : Tx :=
  { s with image := { s.image with mem := f s.image.mem } }

/-- `pmfs_add_logentry`, with the result thrown away. -/
def Tx.log (s : Tx) (addr size : ℕ) : Tx :=
  match (pmfsAddLogentry s.trans addr size leData).exec s.image with
  | (image, .ok r) => { s with image := image, trans := r.getD s.trans }
  | (image, .error _) => { s with image := image }

/-! ## Inodes and pages of pointers -/

def height (m : Mem) (pi : ℕ) : ℕ := readLE m (pi + 2) 1
def iFlags (m : Mem) (pi : ℕ) : ℕ := readLE m (pi + 4) 4
def root (m : Mem) (pi : ℕ) : ℕ := readLE m (pi + 8) 8
def iSize (m : Mem) (pi : ℕ) : ℕ := readLE m (pi + 16) 8
def iBlocks (m : Mem) (pi : ℕ) : ℕ := readLE m (pi + 40) 8

def setHeight (m : Mem) (pi v : ℕ) : Mem := writeLE m (pi + 2) 1 v
def setIFlags (m : Mem) (pi v : ℕ) : Mem := writeLE m (pi + 4) 4 v
def setRoot (m : Mem) (pi v : ℕ) : Mem := writeLE m (pi + 8) 8 v
def setISize (m : Mem) (pi v : ℕ) : Mem := writeLE m (pi + 16) 8 v
def setICtime (m : Mem) (pi v : ℕ) : Mem := writeLE m (pi + 24) 4 v
def setIMtime (m : Mem) (pi v : ℕ) : Mem := writeLE m (pi + 28) 4 v
def setIBlocks (m : Mem) (pi v : ℕ) : Mem := writeLE m (pi + 40) 8 v

/-- `MAX_DATA_PER_LENTRY`. -/
def maxDataPerLentry : ℕ := 48

/-- `PMFS_EOFBLOCKS_FL`. -/
def pmfsEofblocksFl : ℕ := 0x20000000

/-- `node[i]`. -/
def slot (m : Mem) (node i : ℕ) : ℕ := readLE m (node + 8 * i) 8
def setSlot (m : Mem) (node i v : ℕ) : Mem := writeLE m (node + 8 * i) 8 v

/-- The loop of `__pmfs_find_data_block`. -/
def findFrom (m : Mem) : (h bp blocknr : ℕ) → ℕ
  | 0, bp, _ => bp
  | h + 1, bp, blocknr =>
    let bp := slot m bp (blocknr / 512 ^ h)
    if bp = 0 then 0 else findFrom m h bp (blocknr % 512 ^ h)

/-- `pmfs_find_data_block`; 0 for a hole. -/
def pmfsFindDataBlock (m : Mem) (pi blocknr : ℕ) : ℕ :=
  if 512 ^ height m pi ≤ blocknr then 0 else findFrom m (height m pi) (root m pi) blocknr

/-! ## Allocation -/

def zeroBlock (m : Mem) (b : ℕ) : Mem := fun x => if b ≤ x ∧ x < b + 4096 then 0 else m x

/-- `Allocator.pmfs_new_block`; `none` is `-ENOSPC`. -/
def pmfsNewBlock (zero : Bool) (s : Tx) : Option (ℕ × Tx) :=
  match s.free with
  | [] => none
  | b :: free =>
    some (b, Tx.store { s with free := free } fun m => if zero then zeroBlock m b else m)

/-- `pmfs_new_data_block`. -/
def pmfsNewDataBlock (pi : ℕ) (zero : Bool) (s : Tx) : Option (ℕ × Tx) :=
  (pmfsNewBlock zero s).map fun (b, s) =>
    (b, s.store fun m => setIBlocks m pi (iBlocks m pi + 1))

/-- The loop of `pmfs_increase_btree_height`, over `n` levels: whether it failed, the height and the
root it has got to. -/
def growLoop : (n height prevRoot : ℕ) → Tx → Option Errno × ℕ × ℕ × Tx
  | 0, height, prevRoot, s => (none, height, prevRoot, s)
  | n + 1, height, prevRoot, s =>
    match pmfsNewBlock true s with
    | none => (some .enospc, height, prevRoot, s)
    | some (b, s) => growLoop n (height + 1) b (s.store fun m => setSlot m b 0 prevRoot)

/-- `pmfs_increase_btree_height`. -/
def pmfsIncreaseBtreeHeight (pi newHeight : ℕ) (s : Tx) : Option Errno × Tx :=
  let (errval, height, prevRoot, s) :=
    growLoop (newHeight - height s.mem pi) (height s.mem pi) (root s.mem pi) s
  (errval, s.store fun m => setHeight (setRoot m pi prevRoot) pi height)

/-- The journal is told of `node[i]` to `node[last]` before the first change of an old page. -/
def saveSlots (s : Tx) (node i lastIndex : ℕ) (newNode saved : Bool) : Tx :=
  if !newNode && !saved then s.log (node + 8 * i) ((lastIndex - i + 1) * 8) else s

/-- The loop of `recursive_alloc_blocks` over `n` slots from `i` on, in a page `h + 1` levels above
the blocks; `below` is the call for a page of the next level. -/
def allocSlots (pi : ℕ) (zero : Bool) (h block first last : ℕ)
    (below : (block first last : ℕ) → Bool → Tx → Option Errno × Tx) :
    (n i : ℕ) → (newNode saved : Bool) → Tx → Option Errno × Tx
  | 0, _, _, _, s => (none, s)
  | n + 1, i, newNode, saved, s =>
    let lastIndex := last / 512 ^ h
    if h = 0 then
      if slot s.mem block i = 0 then
        match pmfsNewDataBlock pi zero s with
        | none =>
          -- for later recovery in truncate
          (some .enospc, s.store fun m => setIFlags m pi (iFlags m pi ||| pmfsEofblocksFl))
        | some (b, s) =>
          let s := (saveSlots s block i lastIndex newNode saved).store fun m => setSlot m block i b
          allocSlots pi zero h block first last below n (i + 1) newNode (saved || !newNode) s
      else allocSlots pi zero h block first last below n (i + 1) newNode saved s
    else
      let firstBlk := if i = first / 512 ^ h then first % 512 ^ h else 0
      let lastBlk := if i = lastIndex then last % 512 ^ h else 512 ^ h - 1
      if slot s.mem block i = 0 then
        match pmfsNewBlock true s with
        | none => (some .enospc, s)
        | some (b, s) =>
          let s := (saveSlots s block i lastIndex newNode saved).store fun m => setSlot m block i b
          match below b firstBlk lastBlk true s with
          | (some e, s) => (some e, s)
          | (none, s) =>
            allocSlots pi zero h block first last below n (i + 1) true (saved || !newNode) s
      else
        match below (slot s.mem block i) firstBlk lastBlk newNode s with
        | (some e, s) => (some e, s)
        | (none, s) => allocSlots pi zero h block first last below n (i + 1) newNode saved s

/-- `recursive_alloc_blocks`; the height of its page is `h + 1`. -/
def recursiveAllocBlocks (pi : ℕ) (zero : Bool) :
    (h block first last : ℕ) → Bool → Tx → Option Errno × Tx
  | 0, block, first, last, newNode, s =>
    allocSlots pi zero 0 block first last (fun _ _ _ _ s => (none, s)) (last + 1 - first) first
      newNode false s
  | h + 1, block, first, last, newNode, s =>
    allocSlots pi zero (h + 1) block first last (recursiveAllocBlocks pi zero h)
      (last / 512 ^ (h + 1) + 1 - first / 512 ^ (h + 1)) (first / 512 ^ (h + 1)) newNode false s

/-- `__pmfs_alloc_blocks`. -/
def pmfsAllocBlocks (pi fileBlocknr num : ℕ) (zero : Bool) (s : Tx) : Option Errno × Tx :=
  let last := fileBlocknr + num - 1
  let old := height s.mem pi
  let height := if 512 ^ old ≤ last then old + File.levels (last / 512 ^ old) else old
  if 512 ^ old ≤ last ∧ 3 < height then (some .enospc, s)
  else if root s.mem pi = 0 then
    if height = 0 then
      match pmfsNewDataBlock pi zero s with
      | none => (some .enospc, s)
      | some (b, s) => (none, s.store fun m => setHeight (setRoot m pi b) pi height)
    else
      match pmfsIncreaseBtreeHeight pi height s with
      | (some e, s) => (some e, s)
      | (none, s) =>
        recursiveAllocBlocks pi zero (Pages.height s.mem pi - 1) (root s.mem pi) fileBlocknr last
          true s
  else if height = 0 then (none, s)
  else
    match if old < height then pmfsIncreaseBtreeHeight pi height s else (none, s) with
    | (some e, s) => (some e, s)
    | (none, s) =>
      recursiveAllocBlocks pi zero (height - 1) (root s.mem pi) fileBlocknr last false s

end Wpmfs.Pages
