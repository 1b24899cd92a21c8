import Wpmfs.Inode.Slots
import Wpmfs.Inode.Truncate
import Wpmfs.Namei.Reached

/-!
# Inodes on the volume and in memory

The operations on names once more, with what they do to the slots of the inode table, to the inodes
in memory, to the truncate list and to the log of their transaction, whatever of it fails. An inode
number stands for its slot, and for the inode in memory that has it.

Left out are the times, the owners, the contents and sizes of what is no directory, and where blocks
are on the device.
-/

namespace Wpmfs.Volume

open Bytes Dir Namei
open Wpmfs.Inode (PmfsInode Truncates)

/-- What a call that failed returns. -/
structure Code where
  val : ℤ
  neg : val < 0

def einval : Code := ⟨-22, by decide⟩
def enoent : Code := ⟨-2, by decide⟩
def enotempty : Code := ⟨-39, by decide⟩
def enametoolong : Code := ⟨-36, by decide⟩
def emlink : Code := ⟨-31, by decide⟩

/-! ## Inodes -/

def sIfmt : ℕ := 0xf000
def sIfreg : ℕ := 0x8000
def sIfdir : ℕ := 0x4000
def sIflnk : ℕ := 0xa000

def kindOf (mode : ℕ) : Kind :=
  if mode &&& sIfmt = sIfreg then .reg
  else if mode &&& sIfmt = sIfdir then .dir
  else if mode &&& sIfmt = sIflnk then .lnk
  else .special

/-- An inode in its slot. The size is that of a directory, in blocks; two flags of `i_flags`. -/
structure Slot extends PmfsInode where
  iSize : ℕ
  append : Bool
  immutable : Bool
deriving DecidableEq

/-- An inode in memory. -/
structure VfsInode where
  iMode : ℕ
  iNlink : ℕ
  iSize : ℕ
  append : Bool
  immutable : Bool
  startLookup : ℕ
deriving DecidableEq

/-- All about an inode number: its slot, the inode in memory, and the blocks of a directory. -/
structure Cell where
  pi : Slot
  inode : Option VfsInode
  data : ℕ → Block

namespace Cell

/-- The counts in memory and in the slot. -/
def links (c : Cell) : Links :=
  ⟨match c.inode with | some m => m.iNlink | none => c.pi.iLinksCount, c.pi.iLinksCount⟩

def modifyLinks (f : Links → Links) (c : Cell) : Cell :=
  { c with
    pi := { c.pi with iLinksCount := (f c.links).iLinksCount }
    inode := c.inode.map fun m => { m with iNlink := (f c.links).iNlink } }

def modifyInode (f : VfsInode → VfsInode) (c : Cell) : Cell := { c with inode := c.inode.map f }

def modifyBlock (i : ℕ) (f : Block → Block) (c : Cell) : Cell :=
  { c with data := Function.update c.data i (f (c.data i)) }

/-- The directory as a call sees it: its size is that in memory. -/
def dirInode (ino : ℕ) (c : Cell) : DirInode :=
  match c.inode with
  | some m => ⟨ino, (List.range m.iSize).map c.data, m.startLookup⟩
  | none => ⟨ino, (List.range c.pi.iSize).map c.data, 0⟩

/-- The blocks of the directory in persistent memory. -/
def contents (c : Cell) : List Block := (List.range c.pi.iSize).map c.data

end Cell

end Wpmfs.Volume

/-- The inode table, the inodes in memory and the truncate list. -/
structure Wpmfs.Volume where
  cells : ℕ → Volume.Cell
  sInodesCount : ℕ
  sTruncate : List ℕ
  iNextTruncate : ℕ → ℕ
  iTruncatesize : ℕ → ℕ
  head : ℕ

namespace Wpmfs.Volume

open Bytes Dir Namei
open Wpmfs.Inode (PmfsInode Truncates inodesPerBlock)

def pi (v : Volume) (ino : ℕ) : Slot := (v.cells ino).pi

def inode (v : Volume) (ino : ℕ) : Option VfsInode := (v.cells ino).inode

def modify (v : Volume) (ino : ℕ) (f : Cell → Cell) : Volume :=
  { v with cells := Function.update v.cells ino (f (v.cells ino)) }

/-- What the operations on names see of the volume. -/
def toFs (v : Volume) : Fs :=
  ⟨fun ino =>
    if (v.pi ino).IsFree then none
    else some ⟨kindOf (v.pi ino).iMode, (v.cells ino).links, (v.cells ino).dirInode ino⟩⟩

def pmfsInodeBits : ℕ := 7

def InTable (v : Volume) (ino : ℕ) : Prop := ino < v.sInodesCount * 2 ^ pmfsInodeBits

/-- A slot of zeroes. -/
def zeroSlot : Slot := ⟨⟨0, 0, 0⟩, 0, false, false⟩

/-- `pmfs_increase_inode_table_size` where it succeeds: its transaction commits on its own. -/
def pmfsIncreaseInodeTableSize (v : Volume) : Volume :=
  let count := v.sInodesCount + inodesPerBlock
  { v with
    cells := fun ino =>
      if v.sInodesCount * 2 ^ pmfsInodeBits ≤ ino ∧ ino < count * 2 ^ pmfsInodeBits then
        { v.cells ino with pi := zeroSlot }
      else v.cells ino
    sInodesCount := count }

/-! ## The truncate list -/

/-- The part of the volume that the truncate list is about. -/
def truncates (v : Volume) : Truncates where
  iNo := id
  phase ino := if (v.inode ino).isSome then .live else .absent
  inUse ino := !decide (v.pi ino).IsFree
  sTruncate := v.sTruncate
  iNextTruncate := v.iNextTruncate
  iTruncatesize := v.iTruncatesize
  head := v.head

def setTruncates (v : Volume) (t : Truncates) : Volume :=
  { v with
    sTruncate := t.sTruncate
    iNextTruncate := t.iNextTruncate
    iTruncatesize := t.iTruncatesize
    head := t.head }

def pmfsTruncateAdd (v : Volume) (ino size : ℕ) : Volume :=
  v.setTruncates ((Truncates.pmfsTruncateAdd ino size).exec v.truncates).1

def pmfsTruncateDel (v : Volume) (ino : ℕ) : Volume :=
  v.setTruncates ((Truncates.pmfsTruncateDel ino).exec v.truncates).1

/-! ## Transactions -/

/-- A log entry: an inode as it was, or bytes of a block of a directory. -/
inductive LogEntry where
  | slot (ino : ℕ) (old : Slot)
  | bytes (dir block addr : ℕ) (old : List UInt8)

def pmfsUndoLogentry (v : Volume) : LogEntry → Volume
  | .slot ino old => v.modify ino fun c => { c with pi := old }
  | .bytes dir block addr old => v.modify dir (Cell.modifyBlock block fun b => writeBytes b addr old)

/-- A transaction that has started: the volume, and its log entries, the newest first. -/
structure Trans where
  vol : Volume
  log : List LogEntry

namespace Trans

def modify (t : Trans) (ino : ℕ) (f : Cell → Cell) : Trans := { t with vol := t.vol.modify ino f }

/-- `pmfs_add_logentry` of an inode. -/
def logInode (t : Trans) (ino : ℕ) : Trans := { t with log := .slot ino (t.vol.pi ino) :: t.log }

/-- `pmfs_add_logentry` of `size` bytes of a directory. -/
def logBytes (t : Trans) (dir block addr size : ℕ) : Trans :=
  { t with log := .bytes dir block addr (readBytes ((t.vol.cells dir).data block) addr size) :: t.log }

end Trans

/-- `pmfs_new_transaction` on the volume. -/
def start (v : Volume) : Trans := ⟨v, []⟩

/-- `pmfs_abort_transaction`. -/
def abort (t : Trans) : Volume := t.log.foldl pmfsUndoLogentry t.vol

/-! ## Entries of directories -/

/-- The loop of `pmfs_add_entry`: the block and the entry where there is room for the name, or
nothing when no block has room. -/
def roomFrom (name : Name) : ℕ → List Block → Option (Option (ℕ × ℕ))
  | _, [] => some none
  | i, b :: bs =>
    match findRoom b (pmfsDirRecLen name.length) 0 with
    | none => none
    | some (some de) => some (some (i, de))
    | some none => roomFrom name (i + 1) bs

/-- The log entry of `pmfs_add_dirent_to_buf`: the length of a live entry, the number of another. -/
def logDirent (t : Trans) (dir block de : ℕ) : Trans :=
  if ino ((t.vol.cells dir).data block) de ≠ 0 then t.logBytes dir block (de + 8) 2
  else t.logBytes dir block de 8

/-- The block `b` becomes the last one of the directory, with one entry that fills it. -/
def appendBlock (name : Name) (inode : ℕ) (b : Block) (c : Cell) : Cell :=
  let size := (c.dirInode 0).blocks.length
  let c := c.modifyInode fun m => { m with iSize := size + 1 }
  let c := { c with pi := { c.pi with iSize := size + 1 } }
  c.modifyBlock size fun _ => insertDirent (setDeLen (setIno b 0 0) 0 blockSize) 0 name inode

/-- `pmfs_add_entry`. `alloc` is the block that the directory gets when it has to grow. -/
def pmfsAddEntry (t : Trans) (dir : ℕ) (name : Name) (inode : ℕ) (alloc : Except Code Block) :
    Option (Except Code Unit × Trans) :=
  if name.length = 0 then some (.error einval, t)
  else
    let t := t.logInode dir
    match roomFrom name 0 ((t.vol.cells dir).dirInode dir).blocks with
    | none => none
    | some (some (i, de)) =>
      some (.ok (), (logDirent t dir i de).modify dir
        (Cell.modifyBlock i fun b => insertDirent b de name inode))
    | some none =>
      match alloc with
      | .error e => some (.error e, t)
      | .ok b => some (.ok (), t.modify dir (appendBlock name inode b))

/-- The loop of `pmfs_remove_entry`: the block, the entry and the one before it. -/
def entryFrom (name : Name) : ℕ → List Block → Option (ℕ × ℕ × Option ℕ)
  | _, [] => none
  | i, b :: bs =>
    match pmfsSearchDirblock b name with
    | .found res prev => some (i, res, prev)
    | _ => entryFrom name (i + 1) bs

/-- `pmfs_remove_entry`. -/
def pmfsRemoveEntry (t : Trans) (dir : ℕ) (name : Name) : Except Code Unit × Trans :=
  if name.length = 0 then (.error einval, t)
  else
    match entryFrom name 0 ((t.vol.cells dir).dirInode dir).blocks with
    | none => (.error einval, t)
    | some (i, res, prev) =>
      let t :=
        match prev with
        | some prev => t.logBytes dir i (prev + 8) 2
        | none => t.logBytes dir i res 8
      (.ok (), (t.modify dir (Cell.modifyBlock i fun b => unlinkDirent b res prev)).logInode dir)

/-- `pmfs_inode_by_name`, which moves the hint of the directory. -/
def pmfsInodeByName (v : Volume) (dir : ℕ) (name : Name) : Option (Lookup × Volume) :=
  let d := (v.cells dir).dirInode dir
  (Dir.pmfsInodeByName d.blocks.length d name).map fun r =>
    (r, v.modify dir (Cell.modifyInode fun m => { m with startLookup := r.dir.startLookup }))

/-! ## Inodes come and go -/

/-- How the search for a new inode ends: without one, with one whose number another inode in memory
has, or well. The inode table may have grown. -/
inductive NewInode where
  | none (e : Code)
  | clash (ino : ℕ) (grown : Bool)
  | found (ino : ℕ) (grown : Bool)

/-- What a call depends on: the reservation in the journal, the new inode, the first block of the
new inode and one more of the directory, the reservation for freeing an inode, the size of the
inode, and the time. -/
structure Env where
  trans : Except Code Unit
  newInode : NewInode
  fresh : Except Code Block
  alloc : Except Code Block
  free : Except Code Unit
  iSize : ℕ
  seconds : ℕ

/-- What `pmfs_new_inode` writes to the slot. Flags that make it read-only are not inherited. -/
def newSlot (mode : ℕ) : Slot := ⟨⟨1, mode, 0⟩, 0, false, false⟩

def grow (t : Trans) (grown : Bool) : Trans :=
  if grown then { t with vol := t.vol.pmfsIncreaseInodeTableSize } else t

def writeSlot (t : Trans) (ino mode : ℕ) : Trans :=
  (t.logInode ino).modify ino fun c => { c with pi := newSlot mode }

/-- `pmfs_new_inode`. -/
def pmfsNewInode (t : Trans) (mode : ℕ) : NewInode → Except Code ℕ × Trans
  | .none e => (.error e, t)
  | .clash ino grown => (.error einval, writeSlot (grow t grown) ino mode)
  | .found ino grown => (.ok ino, (writeSlot (grow t grown) ino mode).modify ino fun c =>
      { c with inode := some ⟨mode, 1, 0, false, false, 0⟩ })

/-- `pmfs_free_inode` once its transaction has started, which then commits. -/
def pmfsFreeInode (seconds : ℕ) (c : Cell) : Cell :=
  { c with pi := { c.pi with iSize := 0, iDtime := seconds } }

/-- The first part of `pmfs_evict_inode`: an inode without links is freed. -/
def evictFrees (env : Env) (c : Cell) : Cell :=
  match c.inode with
  | none => c
  | some m =>
    if m.iNlink ≠ 0 then c
    else if kindOf m.iMode = Kind.special then c
    else if m.append ∨ m.immutable then c
    else
      match env.free with
      | .error _ => c
      | .ok () => pmfsFreeInode env.seconds c

/-- `pmfs_evict_inode`. -/
def pmfsEvictInode (v : Volume) (ino : ℕ) (env : Env) : Volume :=
  ((v.modify ino (evictFrees env)).pmfsTruncateDel ino).modify ino fun c => { c with inode := none }

/-- `pmfs_iget`. -/
def pmfsIget (v : Volume) (ino : ℕ) : Volume :=
  v.modify ino fun c =>
    match c.inode with
    | some _ => c
    | none =>
      if c.pi.IsFree then c
      else
        let m := ⟨c.pi.iMode, c.pi.iLinksCount, c.pi.iSize, c.pi.append, c.pi.immutable, 0⟩
        { c with inode := some m }

/-! ## Calls -/

abbrev Result := Option (Except Code Unit × Volume)

def fail (t : Trans) (e : Code) : Result := some (.error e, abort t)

def commit (t : Trans) : Result := some (.ok (), t.vol)

/-- `pmfs_add_nondir`. -/
def pmfsAddNondir (t : Trans) (p : Place) (ino : ℕ) (env : Env) :
    Option (Except Code Unit × Trans) :=
  (pmfsAddEntry t p.1 p.2 ino env.alloc).map fun
    | (.ok (), t) => (.ok (), t)
    | (.error e, t) =>
      let t := t.modify ino (Cell.modifyLinks Links.pmfsDecCount)
      (.error e, { t with vol := t.vol.pmfsEvictInode ino env })

/-- `pmfs_create` and `pmfs_mknod`: when there is no inode for it, the return value is still
`PTR_ERR(NULL)`. -/
def createNondir (v : Volume) (p : Place) (mode : ℕ) (env : Env) : Result :=
  match env.trans with
  | .error e => some (.error e, v)
  | .ok () =>
    let err : Except Code Unit := .ok ()
    match pmfsNewInode v.start mode env.newInode with
    | (.error _, t) => some (err, abort t)
    | (.ok ino, t) =>
      match pmfsAddNondir t p ino env with
      | none => none
      | some (.error e, t) => fail t e
      | some (.ok (), t) => commit t

def pmfsCreate (v : Volume) (p : Place) (mode : ℕ) (env : Env) : Result := createNondir v p mode env

def pmfsMknod (v : Volume) (p : Place) (mode : ℕ) (env : Env) : Result := createNondir v p mode env

def sIrwxugo : ℕ := 0o777

/-- `pmfs_symlink` to a path of `len` bytes. -/
def pmfsSymlink (v : Volume) (p : Place) (len : ℕ) (env : Env) : Result :=
  if blockSize < len + 1 then some (.error enametoolong, v)
  else
    match env.trans with
    | .error e => some (.error e, v)
    | .ok () =>
      match pmfsNewInode v.start (sIflnk ||| sIrwxugo) env.newInode with
      | (.error e, t) => fail t e
      | (.ok ino, t) =>
        match env.fresh with
        | .error e =>
          let t := t.modify ino (Cell.modifyLinks Links.pmfsDecCount)
          fail { t with vol := t.vol.pmfsEvictInode ino env } e
        | .ok _ =>
          match pmfsAddNondir t p ino env with
          | none => none
          | some (.error e, t) => fail t e
          | some (.ok (), t) => commit t

def pmfsLink (v : Volume) (inode : ℕ) (p : Place) (env : Env) : Result :=
  if pmfsLinkMax ≤ (v.cells inode).links.iNlink then some (.error emlink, v)
  else
    match env.trans with
    | .error e => some (.error e, v)
    | .ok () =>
      match pmfsAddEntry (v.start.logInode inode) p.1 p.2 inode env.alloc with
      | none => none
      | some (.error e, t) => fail t e
      | some (.ok (), t) =>
        commit (t.modify inode (Cell.modifyLinks fun l => l.incNlink.pmfsUpdateNlink))

def pmfsUnlink (v : Volume) (p : Place) (inode : ℕ) (env : Env) : Result :=
  match env.trans with
  | .error e => some (.error e, v)
  | .ok () =>
    match pmfsRemoveEntry (v.start.logInode inode) p.1 p.2 with
    | (.error e, t) => fail t e
    | (.ok (), t) =>
      let v :=
        if (t.vol.cells inode).links.iNlink = 1 then t.vol.pmfsTruncateAdd inode env.iSize
        else t.vol
      commit { t with vol := v.modify inode (Cell.modifyLinks Links.pmfsDecCount) }

/-- The exit of `pmfs_mkdir` when it has an inode but fails. -/
def outClearInode (t : Trans) (ino : ℕ) (env : Env) (e : Code) : Result :=
  let t := t.modify ino (Cell.modifyLinks Links.clearNlink)
  fail { t with vol := t.vol.pmfsEvictInode ino env } e

/-- The block of a new directory, which nothing logs. Its size is in memory only yet. -/
def writeDots (ino parent : ℕ) (b : Block) (c : Cell) : Cell :=
  (c.modifyInode fun m => { m with iSize := 1 }).modifyBlock 0 fun _ => mkdirBlock ino parent b

/-- `pmfs_mkdir` writes the size of the new inode from that in memory. -/
def updateIsize (c : Cell) : Cell :=
  { c with pi := { c.pi with iSize := (c.dirInode 0).blocks.length } }

def pmfsMkdir (v : Volume) (p : Place) (mode : ℕ) (env : Env) : Result :=
  if pmfsLinkMax ≤ (v.cells p.1).links.iNlink then some (.error emlink, v)
  else
    match env.trans with
    | .error e => some (.error e, v)
    | .ok () =>
      match pmfsNewInode v.start (sIfdir ||| mode) env.newInode with
      | (.error e, t) => fail t e
      | (.ok ino, t) =>
        match env.fresh with
        | .error e => outClearInode t ino env e
        | .ok b =>
          let t := t.modify ino (writeDots ino p.1 b)
          let t := t.modify ino (Cell.modifyLinks (Links.setNlink 2))
          match pmfsAddEntry t p.1 p.2 ino env.alloc with
          | none => none
          | some (.error e, t) => outClearInode t ino env e
          | some (.ok (), t) =>
            let t := t.modify ino (Cell.modifyLinks Links.pmfsUpdateNlink)
            let t := t.modify ino updateIsize
            commit (t.modify p.1 (Cell.modifyLinks Links.pmfsIncCount))

def pmfsRmdir (v : Volume) (p : Place) (inode : ℕ) (env : Env) : Result :=
  match v.pmfsInodeByName p.1 p.2 with
  | none => none
  | some (r, v) =>
    if r.iNo = 0 then some (.error enoent, v)
    else if !pmfsEmptyDir ((v.cells inode).dirInode inode) then some (.error enotempty, v)
    else
      match env.trans with
      | .error e => some (.error e, v)
      | .ok () =>
        match pmfsRemoveEntry (v.start.logInode inode) p.1 p.2 with
        | (.error e, t) => fail t e
        | (.ok (), t) =>
          let t := t.modify inode (Cell.modifyLinks fun l => l.clearNlink.pmfsUpdateNlink)
          let t := { t with vol := t.vol.pmfsTruncateAdd inode env.iSize }
          commit (t.modify p.1 (Cell.modifyLinks Links.pmfsDecCount))

/-- The checks of `pmfs_rename`. -/
def renameCheck (v : Volume) (isDir : Bool) (newDir : ℕ) : Option ℕ → Except Code Unit
  | some newInode =>
    if isDir && !pmfsEmptyDir ((v.cells newInode).dirInode newInode) then .error enotempty
    else .ok ()
  | none =>
    if isDir && decide (pmfsLinkMax ≤ (v.cells newDir).links.iNlink) then .error emlink else .ok ()

/-- `pmfs_rename` puts the inode into the new directory, or into the entry that is there. -/
def renameEnter (t : Trans) (oldInode : ℕ) (q : Place) (alloc : Except Code Block) :
    Option (ℕ × ℕ) → Option (Except Code Unit × Trans)
  | none => pmfsAddEntry t q.1 q.2 oldInode alloc
  | some newDe =>
    some (.ok (), ((t.logBytes q.1 newDe.1 newDe.2 8).modify q.1
      (Cell.modifyBlock newDe.1 fun b => setIno b newDe.2 oldInode)).logInode q.1)

/-- The link counts after `pmfs_rename`, and the truncate list. -/
def renameCounts (t : Trans) (isDir : Bool) (oldDir newDir : ℕ) (env : Env) : Option ℕ → Trans
  | some newInode =>
    let t := (t.logInode newInode).modify newInode (Cell.modifyLinks (Links.replaced isDir))
    if (t.vol.cells newInode).links.iNlink = 0 then
      { t with vol := t.vol.pmfsTruncateAdd newInode env.iSize }
    else t
  | none =>
    if isDir then
      (t.modify newDir (Cell.modifyLinks Links.pmfsIncCount)).modify oldDir
        (Cell.modifyLinks Links.pmfsDecCount)
    else t

def pmfsRename (v : Volume) (p : Place) (oldInode : ℕ) (q : Place) (newInode : Option ℕ)
    (env : Env) : Result := do
  let (new, v) ← v.pmfsInodeByName q.1 q.2
  let (_, v) ← v.pmfsInodeByName p.1 p.2
  match env.trans with
  | .error e => some (.error e, v)
  | .ok () =>
    let isDir := decide (kindOf ((v.inode oldInode).elim 0 VfsInode.iMode) = .dir)
    match renameCheck v isDir q.1 newInode with
    | .error e => fail v.start e
    | .ok () =>
      match renameEnter (v.start.logInode oldInode) oldInode q env.alloc new.resEntry with
      | none => none
      | some (.error e, t) => fail t e
      | some (.ok (), t) =>
        match pmfsRemoveEntry t p.1 p.2 with
        | (.error e, t) => fail t e
        | (.ok (), t) => commit (renameCounts t isDir p.1 q.1 env newInode)

def writeFlags (append immutable : Bool) (c : Cell) : Cell :=
  { c with
    pi := { c.pi with append := append, immutable := immutable }
    inode := c.inode.map fun m => { m with append := append, immutable := immutable } }

/-- The `FS_IOC_SETFLAGS` case of `pmfs_ioctl`. -/
def setFlags (v : Volume) (ino : ℕ) (append immutable : Bool) (env : Env) : Result :=
  match env.trans with
  | .error e => some (.error e, v)
  | .ok () => commit ((v.start.logInode ino).modify ino (writeFlags append immutable))

end Wpmfs.Volume
