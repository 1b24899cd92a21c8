import Wpmfs.Dir.Basic
import Wpmfs.Pages.Basic

/-!
# Directories in memory

Additions and removals of names under a transaction, on the block tree of a directory in persistent
memory: what they log, what they store, and how the directory grows. A directory is the address of
its inode, `pidir`, and the size in the VFS inode. What is done to one block is what the functions
of the same names do to a block on its own.

`now` is what `current_time` gives. The remaining fields of the VFS inode are left out.
-/

namespace Wpmfs.Dir.Memory

open Pages

/-- The block at `p`. -/
def blockAt (m : Mem) (p : ℕ) : Block := fun x => m (p + x)

/-- Stores to the block at `p`. -/
def storeBlock (p : ℕ) (f : Block → Block) (m : Mem) : Mem := fun x =>
  if p ≤ x then f (blockAt m p) (x - p) else m x

def setTimes (pidir now : ℕ) (m : Mem) : Mem := setICtime (setIMtime m pidir now) pidir now

/-- `pmfs_add_dirent_to_buf` from the entry it has chosen; `trans` tells whether there is a
transaction. -/
def fillDirent (trans : Bool) (pidir now : ℕ) (name : Name) (inode blkBase de : ℕ) (s : Tx) : Tx :=
  let s :=
    if !trans then s
    else if ino (blockAt s.mem blkBase) de ≠ 0 then s.log (blkBase + (de + 8)) 2
    else s.log (blkBase + de) 8
  (s.store (storeBlock blkBase fun b => insertDirent b de name inode)).store (setTimes pidir now)

/-- `pmfs_add_dirent_to_buf`, with the entry when the caller has chosen it. An entry of length 0
keeps its loop where it is for ever: `none`. -/
def pmfsAddDirentToBuf (trans : Bool) (pidir now : ℕ) (name : Name) (inode : ℕ) (de : Option ℕ)
    (blkBase : ℕ) (s : Tx) : Option (Option Pages.Errno × Tx) :=
  match de with
  | some de => some (none, fillDirent trans pidir now name inode blkBase de s)
  | none =>
    (findRoom (blockAt s.mem blkBase) (pmfsDirRecLen name.length) 0).map fun
      | some de => (none, fillDirent trans pidir now name inode blkBase de s)
      | none => (some .enospc, s)

/-- The loop of `pmfs_add_entry` over `n` blocks from `block` on. -/
def addToBlocks (pidir now : ℕ) (name : Name) (inode : ℕ) :
    (n block : ℕ) → Tx → Option (Option Pages.Errno × Tx)
  | 0, _, s => some (some .enospc, s)
  | n + 1, block, s =>
    let blkBase := pmfsFindDataBlock s.mem pidir block
    if blkBase = 0 then some (some .eio, s)
    else
      match pmfsAddDirentToBuf true pidir now name inode none blkBase s with
      | some (some .enospc, s) => addToBlocks pidir now name inode n (block + 1) s
      | r => r

/-- `pmfs_add_entry`: what it returns, and the size of the directory after it. -/
def pmfsAddEntry (pidir size now : ℕ) (name : Name) (inode : ℕ) (s : Tx) :
    Option (Option Pages.Errno × ℕ × Tx) :=
  if name.length = 0 then some (some .einval, size, s)
  else
    let blocks := size / blockSize
    match addToBlocks pidir now name inode blocks 0 (s.log pidir maxDataPerLentry) with
    | none => none
    | some (some .enospc, s) =>
      match pmfsAllocBlocks pidir blocks 1 false s with
      | (some e, s) => some (some e, size, s)
      | (none, s) =>
        let size := size + blockSize
        let s := s.store fun m => setISize m pidir size
        let blkBase := pmfsFindDataBlock s.mem pidir blocks
        if blkBase = 0 then some (some .enospc, size, s)
        else
          -- no need to log the changes to this entry because it is in a new block
          let s := s.store (storeBlock blkBase fun b => setDeLen (setIno b 0 0) 0 blockSize)
          (pmfsAddDirentToBuf false pidir now name inode (some 0) blkBase s).map fun (e, s) =>
            (e, size, s)
    | some (e, s) => some (e, size, s)

/-- The loop of `pmfs_remove_entry` over `n` blocks from `block` on: the block, the entry of the
name and the one before it. -/
def findEntry (m : Mem) (pidir : ℕ) (name : Name) : (n block : ℕ) → Option (ℕ × ℕ × Option ℕ)
  | 0, _ => none
  | n + 1, block =>
    let blkBase := pmfsFindDataBlock m pidir block
    if blkBase = 0 then none
    else
      match pmfsSearchDirblock (blockAt m blkBase) name with
      | .found res prev => some (blkBase, res, prev)
      | _ => findEntry m pidir name n (block + 1)

/-- `pmfs_remove_entry`. -/
def pmfsRemoveEntry (pidir size now : ℕ) (name : Name) (s : Tx) : Option Pages.Errno × Tx :=
  if name.length = 0 then (some .einval, s)
  else
    match findEntry s.mem pidir name (size / blockSize) 0 with
    | none => (some .einval, s)
    | some (blkBase, res, prev) =>
      let s :=
        match prev with
        | some prev => s.log (blkBase + (prev + 8)) 2
        | none => s.log (blkBase + res) 8
      let s := s.store (storeBlock blkBase fun b => unlinkDirent b res prev)
      (none, (s.log pidir maxDataPerLentry).store (setTimes pidir now))

/-- Where `addToBlocks` finds room: the block and the entry. -/
def findPlace (m : Mem) (pidir : ℕ) (name : Name) : (n block : ℕ) → Option (ℕ × ℕ)
  | 0, _ => none
  | n + 1, block =>
    let blkBase := pmfsFindDataBlock m pidir block
    match findRoom (blockAt m blkBase) (pmfsDirRecLen name.length) 0 with
    | some (some de) => some (blkBase, de)
    | _ => findPlace m pidir name n (block + 1)

end Wpmfs.Dir.Memory
