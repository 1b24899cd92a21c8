import Wpmfs.Dir.Dots

/-!
# Operations on names

The directory operations of the file system over a table of inodes: an inode has a kind, two link
counts (`i_nlink` in memory and `i_links_count` in persistent memory) and, when it is a directory,
its blocks.

A call that fails aborts its transaction; only its error is modelled. Left out are the times, the
sizes other than those of directories, the contents of files and symbolic links, the truncate list
and the search of the inode table for a free inode: the number of a new inode is an argument.
-/

namespace Wpmfs.Namei

open Dir

inductive Kind where
  | reg
  | dir
  | lnk
  | special
deriving DecidableEq, Repr

/-- The link counts of an inode, in memory and in persistent memory. -/
structure Links where
  iNlink : ℕ
  iLinksCount : ℕ
deriving DecidableEq, Repr

namespace Links

def incNlink (l : Links) : Links := { l with iNlink := l.iNlink + 1 }
def dropNlink (l : Links) : Links := { l with iNlink := l.iNlink - 1 }
def clearNlink (l : Links) : Links := { l with iNlink := 0 }
def setNlink (n : ℕ) (l : Links) : Links := { l with iNlink := n }

/-- `pmfs_update_nlink`: `i_links_count` has 16 bits. -/
def pmfsUpdateNlink (l : Links) : Links := { l with iLinksCount := l.iNlink % 2 ^ 16 }

def pmfsIncCount (l : Links) : Links := l.incNlink.pmfsUpdateNlink

def pmfsDecCount (l : Links) : Links :=
  if l.iNlink ≠ 0 then l.dropNlink.pmfsUpdateNlink else l

/-- What `pmfs_rename` does to the counts of an inode whose entry it takes over. -/
def replaced (isDir : Bool) (l : Links) : Links :=
  let l := if isDir then if l.iNlink ≠ 0 then l.dropNlink else l else l
  (if l.iNlink ≠ 0 then l.dropNlink else l).pmfsUpdateNlink

end Links

structure Inode where
  kind : Kind
  links : Links
  dir : DirInode

structure Fs where
  inodes : ℕ → Option Inode

def pmfsLinkMax : ℕ := 32000
def pmfsRootIno : ℕ := 128

/-- The result of a call: it does not return, fails, or returns. -/
abbrev Result := ExceptT Errno Option

namespace Fs

def get (s : Fs) (ino : ℕ) : Result Inode :=
  match s.inodes ino with
  | none => throw .enoent
  | some i => pure i

def set (s : Fs) (ino : ℕ) (i : Inode) : Fs := ⟨Function.update s.inodes ino (some i)⟩

def modify (s : Fs) (ino : ℕ) (f : Inode → Inode) : Fs :=
  ⟨Function.update s.inodes ino ((s.inodes ino).map f)⟩

def modifyLinks (s : Fs) (ino : ℕ) (f : Links → Links) : Fs :=
  s.modify ino fun i => { i with links := f i.links }

def modifyDir (s : Fs) (ino : ℕ) (f : DirInode → DirInode) : Fs :=
  s.modify ino fun i => { i with dir := f i.dir }

/-- `pmfs_add_entry` on the directory `dir`. -/
def addEntry (s : Fs) (dir : ℕ) (name : Name) (inode : ℕ) (alloc : Except Errno Block) :
    Result Fs := do
  let i ← s.get dir
  let d ← ExceptT.mk (pmfsAddEntry i.dir name inode alloc)
  return s.modifyDir dir fun _ => d

/-- `pmfs_remove_entry` on the directory `dir`. -/
def removeEntry (s : Fs) (dir : ℕ) (name : Name) : Result Fs := do
  let i ← s.get dir
  let d ← ExceptT.mk (some (pmfsRemoveEntry i.dir name))
  return s.modifyDir dir fun _ => d

/-- `pmfs_inode_by_name` on the directory `dir`, which moves its hint. -/
def inodeByName (s : Fs) (dir : ℕ) (name : Name) : Result (Lookup × Fs) := do
  let i ← s.get dir
  let r ← ExceptT.mk ((pmfsInodeByName i.dir.blocks.length i.dir name).map .ok)
  return (r, s.modifyDir dir fun _ => r.dir)

end Fs

/-! ## Calls -/

/-- `pmfs_new_inode`, which has found that `ino` is free. -/
def pmfsNewInode (s : Fs) (ino : ℕ) (kind : Kind) : Fs := s.set ino ⟨kind, ⟨1, 1⟩, ⟨ino, [], 0⟩⟩

def pmfsAddNondir (s : Fs) (dir : ℕ) (name : Name) (ino : ℕ) (alloc : Except Errno Block) :
    Result Fs :=
  s.addEntry dir name ino alloc

def pmfsCreate (s : Fs) (dir : ℕ) (name : Name) (ino : ℕ) (alloc : Except Errno Block) :
    Result Fs :=
  pmfsAddNondir (pmfsNewInode s ino .reg) dir name ino alloc

/-- `pmfs_mknod`. The kind is that of the mode. -/
def pmfsMknod (s : Fs) (dir : ℕ) (name : Name) (kind : Kind) (ino : ℕ)
    (alloc : Except Errno Block) : Result Fs :=
  pmfsAddNondir (pmfsNewInode s ino kind) dir name ino alloc

/-- `pmfs_symlink` to a path of `len` bytes. `block` is how `pmfs_block_symlink` ends. -/
def pmfsSymlink (s : Fs) (dir : ℕ) (name : Name) (len : ℕ) (ino : ℕ) (block : Except Errno Unit)
    (alloc : Except Errno Block) : Result Fs :=
  if blockSize < len + 1 then throw .enametoolong
  else do
    let _ ← ExceptT.mk (some block)
    pmfsAddNondir (pmfsNewInode s ino .lnk) dir name ino alloc

def pmfsLink (s : Fs) (inode dir : ℕ) (name : Name) (alloc : Except Errno Block) : Result Fs := do
  let i ← s.get inode
  if pmfsLinkMax ≤ i.links.iNlink then throw .emlink
  else do
    let s ← s.addEntry dir name inode alloc
    return s.modifyLinks inode fun l => l.incNlink.pmfsUpdateNlink

def pmfsUnlink (s : Fs) (dir : ℕ) (name : Name) (inode : ℕ) : Result Fs := do
  let s ← s.removeEntry dir name
  return s.modifyLinks inode fun l => if l.iNlink ≠ 0 then l.dropNlink.pmfsUpdateNlink else l

/-- `pmfs_mkdir`. `fresh` is the first block of the new directory. -/
def pmfsMkdir (s : Fs) (dir : ℕ) (name : Name) (ino : ℕ) (fresh alloc : Except Errno Block) :
    Result Fs := do
  let d ← s.get dir
  if pmfsLinkMax ≤ d.links.iNlink then throw .emlink
  else do
    let s := pmfsNewInode s ino .dir
    let b ← ExceptT.mk (some fresh)
    let s := s.modifyDir ino fun _ => mkdirDir ino dir b
    let s := s.modifyLinks ino (Links.setNlink 2)
    let s ← s.addEntry dir name ino alloc
    let s := s.modifyLinks ino Links.pmfsUpdateNlink
    return s.modifyLinks dir Links.pmfsIncCount

def pmfsRmdir (s : Fs) (dir : ℕ) (name : Name) (inode : ℕ) : Result Fs := do
  let (r, s) ← s.inodeByName dir name
  if r.iNo = 0 then throw .enoent
  else do
    let i ← s.get inode
    if !pmfsEmptyDir i.dir then throw .enotempty
    else do
      let s ← s.removeEntry dir name
      let s := s.modifyLinks inode fun l => l.clearNlink.pmfsUpdateNlink
      return s.modifyLinks dir Links.pmfsDecCount

/-- The checks of `pmfs_rename`. -/
def renameCheck (s : Fs) (isDir : Bool) (newDir : ℕ) : Option ℕ → Result Unit
  | some newInode => do
    let i ← s.get newInode
    if isDir && !pmfsEmptyDir i.dir then throw .enotempty else pure ()
  | none =>
    if isDir then do
      let d ← s.get newDir
      if pmfsLinkMax ≤ d.links.iNlink then throw .emlink else pure ()
    else pure ()

/-- `pmfs_rename` puts the inode into the new directory, or into the entry that is there. -/
def renameEnter (s : Fs) (oldInode newDir : ℕ) (newName : Name) (alloc : Except Errno Block) :
    Option (ℕ × ℕ) → Result Fs
  | none => s.addEntry newDir newName oldInode alloc
  | some newDe => pure (s.modifyDir newDir fun d => setEntryIno d newDe oldInode)

/-- The link counts after `pmfs_rename`. -/
def renameCounts (s : Fs) (isDir : Bool) (oldDir newDir : ℕ) : Option ℕ → Fs
  | some newInode => s.modifyLinks newInode (Links.replaced isDir)
  | none =>
    if isDir then
      (s.modifyLinks newDir Links.pmfsIncCount).modifyLinks oldDir Links.pmfsDecCount
    else s

def pmfsRename (s : Fs) (oldDir : ℕ) (oldName : Name) (oldInode newDir : ℕ) (newName : Name)
    (newInode : Option ℕ) (alloc : Except Errno Block) : Result Fs := do
  let (new, s) ← s.inodeByName newDir newName
  let (_, s) ← s.inodeByName oldDir oldName
  let old ← s.get oldInode
  let isDir := decide (old.kind = .dir)
  renameCheck s isDir newDir newInode
  let s ← renameEnter s oldInode newDir newName alloc new.resEntry
  let s ← s.removeEntry oldDir oldName
  return renameCounts s isDir oldDir newDir newInode

/-- `pmfs_evict_inode`, when the last user of an inode is gone: without links it is freed, unless
it is a device, a pipe or a socket. -/
def pmfsEvictInode (s : Fs) (ino : ℕ) : Fs :=
  match s.inodes ino with
  | some i =>
    if i.links.iNlink = 0 ∧ i.kind ≠ .special then ⟨Function.update s.inodes ino none⟩ else s
  | none => s

/-- The file system after `pmfs_init`: the root directory. -/
def pmfsInit (b : Block) : Fs :=
  ⟨Function.update (fun _ => none) pmfsRootIno
    (some ⟨.dir, ⟨2, 2⟩, mkdirDir pmfsRootIno pmfsRootIno b⟩)⟩

end Wpmfs.Namei
