import Wpmfs.Library.Bytes

/-!
# Directories

A directory is a sequence of blocks. Each block is filled by entries one after another: an inode
number, the length of the entry, the length of the name, a file type that is never set, and the
name. An entry with inode number 0 is unused.

Addresses are offsets into a block. The times of the directory, the log entries of the transaction
and the write protection of the blocks are left out.
-/

namespace Wpmfs.Dir

open Bytes

inductive Errno where
  | einval
  | enospc
  | enoent
  | enotempty
  | enametoolong
  | emlink
deriving DecidableEq, Repr

abbrev Block := ℕ → UInt8
abbrev Name := List UInt8

/-- `sb->s_blocksize`. -/
def blockSize : ℕ := 4096

def pmfsNameLen : ℕ := 255

/-- `PMFS_DIR_REC_LEN`: header and name, rounded up to `PMFS_DIR_PAD`. -/
def pmfsDirRecLen (nameLen : ℕ) : ℕ := (nameLen + 12 + 3) / 4 * 4

/-! ## Entries -/

def ino (b : Block) (de : ℕ) : ℕ := readLE b de 8
def deLen (b : Block) (de : ℕ) : ℕ := readLE b (de + 8) 2
def nameLen (b : Block) (de : ℕ) : ℕ := readLE b (de + 10) 1

def setIno (b : Block) (de v : ℕ) : Block := writeLE b de 8 v
def setDeLen (b : Block) (de v : ℕ) : Block := writeLE b (de + 8) 2 v
def setNameLen (b : Block) (de v : ℕ) : Block := writeLE b (de + 10) 1 v
def setName (b : Block) (de : ℕ) (name : Name) : Block := writeBytes b (de + 12) name

/-- `pmfs_match`. -/
def pmfsMatch (name : Name) (b : Block) (de : ℕ) : Bool :=
  name.length = nameLen b de && ino b de ≠ 0 && readBytes b (de + 12) name.length = name

/-- The message of `pmfs_check_dir_entry`, if there is one. -/
def errorMsg (b : Block) (de : ℕ) : Option String :=
  if deLen b de < pmfsDirRecLen 1 then some "de_len is smaller than minimal"
  else if deLen b de % 4 ≠ 0 then some "de_len % 4 != 0"
  else if deLen b de < pmfsDirRecLen (nameLen b de) then some "de_len is too small for name_len"
  else if blockSize < de + deLen b de then some "directory entry across blocks"
  else none

def pmfsCheckDirEntry (b : Block) (de : ℕ) : Bool := (errorMsg b de).isNone

def pmfsNextEntry (b : Block) (de : ℕ) : ℕ := de + deLen b de

/-! ## Search -/

/-- What `pmfs_search_dirblock` returns: 0, -1, or 1 with the entry and the one before it. -/
inductive Search where
  | notFound
  | bad
  | found (resDir : ℕ) (prevDir : Option ℕ)
deriving DecidableEq, Repr

/-- The loop of `pmfs_search_dirblock` from the entry `de` on, `pde` being the one before. -/
def searchFrom (b : Block) (child : Name) (de : ℕ) (pde : Option ℕ) : Search :=
  if de < blockSize then
    if de + child.length ≤ blockSize ∧ pmfsMatch child b de then
      -- found a match - just to be sure, do a full check
      if pmfsCheckDirEntry b de then .found de pde else .bad
    else if deLen b de = 0 then .bad
    else searchFrom b child (pmfsNextEntry b de) (some de)
  else .notFound
termination_by blockSize - de
decreasing_by rw [pmfsNextEntry]; omega

def pmfsSearchDirblock (b : Block) (child : Name) : Search := searchFrom b child 0 none

/-- A directory: its inode number, its blocks (`i_size` is their number times the block size) and
where the next lookup starts (`i_dir_start_lookup`). -/
structure DirInode where
  iIno : ℕ
  blocks : List Block
  startLookup : ℕ

/-- How a pass of the lookup over the blocks ends. -/
inductive Pass where
  | found (block de : ℕ)
  | failed
  | exhausted
deriving DecidableEq, Repr

/-- The `do … while (block != start)` of `pmfs_inode_by_name`; `none` when the fuel runs out. -/
def lookupPass (blocks : List Block) (entry : Name) (nblocks start : ℕ) : ℕ → ℕ → Option Pass
  | 0, _ => none
  | fuel + 1, block =>
    match blocks[block]? with
    | none => some .failed
    | some b =>
      match pmfsSearchDirblock b entry with
      | .found de _ => some (.found block de)
      | .bad => some .failed
      | .notFound =>
        let next := if nblocks ≤ block + 1 then 0 else block + 1
        if next = start then some .exhausted
        else lookupPass blocks entry nblocks start fuel next

/-- The result of `pmfs_inode_by_name`: the inode number, `*res_entry` (a block and an offset) when
it is set, and the directory with its new hint. -/
structure Lookup where
  iNo : ℕ
  resEntry : Option (ℕ × ℕ)
  dir : DirInode

def Lookup.ofPass (dir : DirInode) : Pass → Lookup
  | .found block de =>
    ⟨ino (dir.blocks.getD block fun _ => 0) de, some (block, de), { dir with startLookup := block }⟩
  | .failed => ⟨0, none, dir⟩
  | .exhausted => ⟨0, none, dir⟩

/-- The names that `pmfs_inode_by_name` looks for in the first block only: `.` and `..`. A name is
followed by a zero byte. -/
def isDotName (name : Name) : Bool :=
  name.length ≤ 2 && name.getD 0 0 = 0x2e && (name.getD 1 0 = 0x2e || name.getD 1 0 = 0)

/-- `pmfs_inode_by_name`. -/
def pmfsInodeByName (fuel : ℕ) (dir : DirInode) (entry : Name) : Option Lookup :=
  if pmfsNameLen < entry.length then some ⟨0, none, dir⟩
  else
    let size := dir.blocks.length
    let nblocks := if isDotName entry then 1 else size
    let start :=
      if isDotName entry then 0 else if size ≤ dir.startLookup then 0 else dir.startLookup
    match lookupPass dir.blocks entry nblocks start fuel start with
    | some .exhausted =>
      -- search the part of the directory that lies after `nblocks` before giving up
      if nblocks < size then
        (lookupPass dir.blocks entry size 0 fuel nblocks).map (Lookup.ofPass dir)
      else some ⟨0, none, dir⟩
    | pass => pass.map (Lookup.ofPass dir)

/-! ## Changes -/

/-- Whether an entry of `reclen` bytes fits into the unused entry `de`, or behind the live one. -/
def hasRoom (b : Block) (reclen de : ℕ) : Bool :=
  if ino b de ≠ 0 then pmfsDirRecLen (nameLen b de) + reclen ≤ deLen b de else reclen ≤ deLen b de

/-- The search of `pmfs_add_dirent_to_buf` for an entry with room: the entry, or nothing when the
block has none. An entry of length 0 keeps the loop where it is for ever: `none`. -/
def findRoom (b : Block) (reclen de : ℕ) : Option (Option ℕ) :=
  if de + reclen ≤ blockSize then
    if hasRoom b reclen de then some (some de)
    else if deLen b de = 0 then none
    else findRoom b reclen (pmfsNextEntry b de)
  else some none
termination_by blockSize + 1 - de
decreasing_by rw [pmfsNextEntry]; omega

/-- The entry `de` as `pmfs_add_dirent_to_buf` fills it. -/
def writeDirent (b : Block) (de : ℕ) (name : Name) (inode : ℕ) : Block :=
  setName (setNameLen (setIno b de inode) de name.length) de name

/-- `pmfs_add_dirent_to_buf` from the entry it has chosen: a live one gives its slack away. -/
def insertDirent (b : Block) (de : ℕ) (name : Name) (inode : ℕ) : Block :=
  if ino b de ≠ 0 then
    let rlen := deLen b de
    let nlen := pmfsDirRecLen (nameLen b de)
    let de1 := de + nlen
    writeDirent (setDeLen (setDeLen b de1 (rlen - nlen)) de nlen) de1 name inode
  else writeDirent b de name inode

/-- `pmfs_add_dirent_to_buf`, with the entry when the caller has chosen it. -/
def pmfsAddDirentToBuf (name : Name) (inode : ℕ) (de : Option ℕ) (b : Block) :
    Option (Except Errno Block) :=
  match de with
  | some de => some (.ok (insertDirent b de name inode))
  | none =>
    (findRoom b (pmfsDirRecLen name.length) 0).map fun
      | some de => .ok (insertDirent b de name inode)
      | none => .error .enospc

/-- The loop of `pmfs_add_entry` over the blocks of the directory. -/
def addToBlocks (name : Name) (inode : ℕ) : List Block → Option (Except Errno (List Block))
  | [] => some (.error .enospc)
  | b :: bs =>
    match pmfsAddDirentToBuf name inode none b with
    | none => none
    | some (.ok b') => some (.ok (b' :: bs))
    | some (.error .enospc) => (addToBlocks name inode bs).map fun r => r.map (b :: ·)
    | some (.error e) => some (.error e)

/-- `pmfs_add_entry`. `alloc` is what `pmfs_alloc_blocks` gives when the directory has to grow: a
block with whatever it holds, or an error. -/
def pmfsAddEntry (dir : DirInode) (name : Name) (inode : ℕ) (alloc : Except Errno Block) :
    Option (Except Errno DirInode) :=
  if name.length = 0 then some (.error .einval)
  else
    match addToBlocks name inode dir.blocks with
    | none => none
    | some (.ok blocks) => some (.ok { dir with blocks := blocks })
    | some (.error .enospc) =>
      match alloc with
      | .error e => some (.error e)
      | .ok b =>
        (pmfsAddDirentToBuf name inode (some 0) (setDeLen (setIno b 0 0) 0 blockSize)).map fun r =>
          r.map fun b => { dir with blocks := dir.blocks ++ [b] }
    | some (.error e) => some (.error e)

/-- How `pmfs_remove_entry` takes an entry out of its block: the entry before it grows over it, and
the first entry of a block becomes unused. -/
def unlinkDirent (b : Block) (res : ℕ) : Option ℕ → Block
  | some prev => setDeLen b prev (deLen b prev + deLen b res)
  | none => setIno b res 0

def removeFromBlocks (name : Name) : List Block → Option (List Block)
  | [] => none
  | b :: bs =>
    match pmfsSearchDirblock b name with
    | .found res prev => some (unlinkDirent b res prev :: bs)
    | _ => (removeFromBlocks name bs).map (b :: ·)

/-- `pmfs_remove_entry`. -/
def pmfsRemoveEntry (dir : DirInode) (name : Name) : Except Errno DirInode :=
  if name.length = 0 then .error .einval
  else
    match removeFromBlocks name dir.blocks with
    | some blocks => .ok { dir with blocks := blocks }
    | none => .error .einval

/-- The name `.`. -/
def dot : Name := [0x2e]

/-- The name `..`. -/
def dotdot : Name := [0x2e, 0x2e]

/-- `PM_STRCPY` to the name of an entry. -/
def strcpyName (b : Block) (de : ℕ) (name : Name) : Block := setName b de (name ++ [0])

/-- The first block of a directory as `pmfs_mkdir` writes it over what the block held. -/
def mkdirBlock (iIno parent : ℕ) (b : Block) : Block :=
  let b := setNameLen (setIno b 0 iIno) 0 1
  let b := strcpyName (setDeLen b 0 (pmfsDirRecLen (nameLen b 0))) 0 dot
  let de := pmfsNextEntry b 0
  let b := setDeLen (setIno b de parent) de (blockSize - pmfsDirRecLen 1)
  strcpyName (setNameLen b de 2) de dotdot

/-- The directory that `pmfs_mkdir` makes. -/
def mkdirDir (iIno parent : ℕ) (b : Block) : DirInode := ⟨iIno, [mkdirBlock iIno parent b], 0⟩

end Wpmfs.Dir
