import Wpmfs.Vmap.Address

/-!
# Migrations

Wear leveling moves a page to another block in one of three ways: a page of a file that is mapped to
user space (`_level_type_rmap`), a page behind a mapping table (`_level_type_vmap`), and, when a
lookup in a block tree meets it, a page that was marked tired (`wpmfs_replace_tired_page`).

Page frame numbers are counted from the first page of the device, so that they are block numbers,
and inodes are given by the fields of `pmfs_get_inode` that block trees need.
-/

namespace Wpmfs.Migrate

open Balloc Vmap

structure PmfsInode where
  root : ℕ
  height : ℕ

/-- An entry of the page cache, `mapping->i_pages`. -/
structure DaxEntry where
  pfn : ℕ
  flags : ℕ
  locked : Bool

/-- The file system with its inodes and the page cache. `freeing` inodes cannot be grabbed any more;
`mapping` is the inode that `page->mapping` belongs to. -/
structure Fs where
  sb : Sb
  inode : ℕ → Option PmfsInode
  freeing : ℕ → Bool
  mapping : ℕ → Option ℕ
  transHuge : ℕ → Bool
  iPages : ℕ → ℕ → Option DaxEntry

namespace Fs

def setSb (s : Fs) (sb : Sb) : Fs := { s with sb := sb }

/-! ## Block trees -/

/-- The loop of `__pmfs_find_data_block` on a tree without tired pages. -/
def pmfsFindDataBlock (sb : Sb) : (height bp blocknr : ℕ) → ℕ
  | 0, bp, _ => bp
  | h + 1, bp, blocknr =>
    match sb.wpmfsGetBlock bp with
    | none => 0
    | some levelPtr =>
      let bp := sb.word levelPtr (blocknr / 512 ^ h)
      if bp = 0 then 0 else pmfsFindDataBlock sb h bp (blocknr % 512 ^ h)

/-- `pmfs_find_data_block`. -/
def findDataBlock (s : Fs) (ino blocknr : ℕ) : ℕ :=
  match s.inode ino with
  | none => 0
  | some pi =>
    if 512 ^ pi.height ≤ blocknr then 0
    else pmfsFindDataBlock s.sb pi.height pi.root blocknr

/-- The loop of `__wpmfs_find_pdatablk`, with its `ret`: the place of the pointer. The outer `none`
is a bad pointer. -/
def wpmfsFindPdatablk (sb : Sb) : (height bp blocknr : ℕ) → Option (ℕ × ℕ) → Option (Option (ℕ × ℕ))
  | 0, _, _, ret => some ret
  | h + 1, bp, blocknr, _ =>
    match sb.wpmfsGetBlock bp with
    | none => none
    | some levelPtr =>
      let idx := blocknr / 512 ^ h
      let bp := sb.word levelPtr idx
      if bp = 0 then some none
      else wpmfsFindPdatablk sb h bp (blocknr % 512 ^ h) (some (levelPtr, idx))

/-- The page behind the pointer `idx` of `levelPtr` is copied to the block `q`, and the pointer
follows. -/
def movePointer (sb : Sb) (levelPtr idx q : ℕ) : Option Sb :=
  match sb.wpmfsGetBlock (sb.word levelPtr idx), sb.wpmfsGetBlock (Sb.pmfsGetBlockOff q) with
  | some src, some dst =>
    some ((sb.memcpyPage dst src).setWord levelPtr idx (Sb.pmfsGetBlockOff q))
  | _, _ => none

/-- `wpmfs_replace_single_datablk`; `none` is a bad pointer. -/
def wpmfsReplaceSingleDatablk (s : Fs) (ino pgoff q : ℕ) : Option Fs :=
  match s.inode ino with
  | none => none
  | some pi =>
    match wpmfsFindPdatablk s.sb pi.height pi.root pgoff none with
    | none => none
    -- "pmfs_inode or pdatablk is null."
    | some none => some s
    | some (some (levelPtr, idx)) => (movePointer s.sb levelPtr idx q).map s.setSb

/-! ## Mapped pages of files -/

/-- `_level_type_rmap_core`: if the page `b` moved to `q`, or there was contention. -/
def levelTypeRmapCore (s : Fs) (b q : ℕ) : Option (Bool × Fs) :=
  if s.transHuge b then some (false, s)
  else
    match s.mapping b with
    | none => none
    | some ino =>
      let pgoff := s.sb.pageIndex b
      match s.iPages ino pgoff with
      | none => some (false, s)
      | some entry =>
        if entry.locked then some (false, s)
        else
          let s := { s with
            sb.pageIndex := Function.update (Function.update s.sb.pageIndex q pgoff) b 0
            mapping := Function.update (Function.update s.mapping q (some ino)) b none }
          (s.wpmfsReplaceSingleDatablk ino pgoff q).map fun s =>
            (true, { s with
              iPages := Function.update s.iPages ino
                (Function.update (s.iPages ino) pgoff (some ⟨q, entry.flags, false⟩)) })

/-- `_level_type_rmap` once it has `blocknr`. -/
def rmapTo (o : Surroundings) (s : Fs) (b q : ℕ) : Option Fs :=
  match s.levelTypeRmapCore b q with
  | none => none
  | some (false, s) => (s.sb.freeBlock o q).map s.setSb
  | some (true, s) => (s.sb.freeBlock o b).map s.setSb

/-- `_level_type_rmap` of the page of the block `b`. Only `-ENOMEM` is noticed; after another error
`blocknr` is what the stack held, `junk`. -/
def levelTypeRmap (o o' : Surroundings) (junk : ℕ) (s : Fs) (b : ℕ) : Option Fs :=
  match s.mapping b with
  | none => some s
  | some ino =>
    if s.freeing ino then some s
    else
      match s.sb.newBlock o with
      | (.ok q, sb) => (s.setSb sb).rmapTo o' b q
      | (.error .enomem, sb) => some (s.setSb sb)
      | (.error .enospc, sb) => (s.setSb sb).rmapTo o' b junk

/-! ## Tired pages -/

/-- `wpmfs_replace_tired_page` of the page behind the pointer `idx` of `levelPtr`: the pointer it
returns. The old block is not given back. -/
def wpmfsReplaceTiredPage (o : Surroundings) (junk : ℕ) (sb : Sb) (levelPtr idx : ℕ) :
    Option (ℕ × Sb) :=
  match sb.newBlock o with
  | (.ok q, sb) => (movePointer sb levelPtr idx q).map (Sb.pmfsGetBlockOff q, ·)
  | (.error .enomem, sb) => some (0, sb)
  | (.error .enospc, sb) => (movePointer sb levelPtr idx junk).map (Sb.pmfsGetBlockOff junk, ·)

/-- `wpmfs_retrieve_datablk`, the step of a lookup. -/
def wpmfsRetrieveDatablk (o : Surroundings) (junk : ℕ) (sb : Sb) (levelPtr idx : ℕ) :
    Option (ℕ × Sb) :=
  let bp := sb.word levelPtr idx
  if bp = 0 then some (0, sb)
  else
    match sb.wpmfsGetPfn bp with
    | none => none
    | some b =>
      if (sb.marks b).pageTired then wpmfsReplaceTiredPage o junk sb levelPtr idx
      else some (bp, sb)

end Fs

end Wpmfs.Migrate
