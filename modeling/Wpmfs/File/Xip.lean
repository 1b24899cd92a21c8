import Wpmfs.File.Basic

/-!
# Reading and writing regular files

A read copies from the blocks, and gives zeros for holes. A write has a block for each part of its
range before it copies, and does not zero the blocks: it clears what it will not write of the first
and the last one. A write inside one block that is there takes a path of its own.

What comes from outside of the file system is in `Write`: the bytes of the user, and how many of
them can be read, the outcome of the calls that start a transaction and remove privileges, and the
words behind the root page, for a lookup that goes there.
-/

namespace Wpmfs.File

/-- The byte `x` of a file of any size; a hole reads as zeros. -/
def contents (f : File) (mem : ℕ → ℕ → UInt8) (x : ℕ) : UInt8 :=
  match pmfsFindDataBlock f (x / 4096) with
  | some b => mem b (x % 4096)
  | none => 0

/-- `pmfs_get_xip_mem`. A block that is missing may be allocated, and is zeroed then. -/
def pmfsGetXipMem (create : Bool) (f : File) (pgoff : ℕ) (s : Env) :
    Option (Except Error ℕ × File × Env) :=
  match pmfsFindDataBlock f pgoff with
  | some b => some (.ok b, f, s)
  | none =>
    if create then
      (pmfsAllocBlocks f pgoff 1 true s).map fun (err, f, s) =>
        match err with
        | some e => (.error e, f, s)
        | none =>
          match pmfsFindDataBlock f pgoff with
          | some b => (.ok b, f, s)
          | none => (.error .enodata, f, s)
    else some (.error .enodata, f, s)

/-! ## Reading -/

/-- What a read returns, and what it has copied to the user. -/
structure Read where
  ret : Except Error ℕ
  ppos : ℕ
  out : List UInt8

/-- How much of the page is to be copied; `none` past the end of the file. -/
def readBytes (isize index offset left : ℕ) : Option ℕ :=
  let endIndex := (isize - 1) / 4096
  if endIndex < index then none
  else
    let nr := if index = endIndex then (isize - 1) % 4096 + 1 else 4096
    if nr ≤ offset then none else some (min (nr - offset) left)

/-- What is copied of a page, and the error of `pmfs_get_xip_mem` for it. A hole reads as zeros. -/
def readPage (f : File) (mem : ℕ → ℕ → UInt8) (index : ℕ) : (ℕ → UInt8) × Option Error :=
  match pmfsFindDataBlock f index with
  | some b => (mem b, none)
  | none => (fun _ => 0, some .enodata)

/-- The loop of `do_xip_mapping_read`. `error` is of the last page; `n` bounds the rounds. -/
def xipReadLoop (f : File) (mem : ℕ → ℕ → UInt8) (len : ℕ) : (n index offset : ℕ) → List UInt8 →
    Option Error → List UInt8 × Option Error
  | 0, _, _, out, error => (out, error)
  | n + 1, index, offset, out, error =>
    match readBytes f.iSize index offset (len - out.length) with
    | none => (out, error)
    | some nr =>
      let (page, error) := readPage f mem index
      let out := out ++ (List.range nr).map fun i => page (offset + i)
      if out.length < len then
        xipReadLoop f mem len n (index + (offset + nr) / 4096) ((offset + nr) % 4096) out error
      else (out, error)

/-- `do_xip_mapping_read` of `len` bytes at `pos`, without a fault. -/
def doXipMappingRead (f : File) (mem : ℕ → ℕ → UInt8) (pos len : ℕ) : Read :=
  let (out, error) :=
    if f.iSize = 0 then ([], none)
    else xipReadLoop f mem len (len / 4096 + 2) (pos / 4096) (pos % 4096) [] none
  { ret := if out.length = 0 then error.elim (.ok 0) .error else .ok out.length
    ppos := pos + out.length
    out := out }

/-! ## Writing -/

/-- A call to write. `behind` tells of the word behind the root page at an index, whether it is a
pointer. -/
structure Write where
  pos : ℕ
  count : ℕ
  buf : ℕ → UInt8
  readable : ℕ
  newTransaction : Option Error
  fileRemovePrivs : ℕ → Except Error ℕ
  behind : ℕ → Bool

namespace Write

variable (w : Write)

def startBlk : ℕ := w.pos / 4096

def numBlocks : ℕ := (w.count + w.pos % 4096 - 1) / 4096 + 1

def endBlk : ℕ := w.startBlk + w.numBlocks - 1

def eblkOffset : ℕ := (w.pos + w.count) % 4096

def sameBlock : Bool := (w.count + w.pos % 4096 - 1) / 4096 = 0

/-- `__copy_from_user`: of `bytes` at `done`, as much as can be read. -/
def copied (done bytes : ℕ) : ℕ := min bytes (w.readable - done)

end Write

/-- What a write returns and leaves. -/
structure Written where
  ret : Except Error ℕ
  ppos : ℕ
  file : File
  env : Env

/-- `n` bytes of `src` are copied to a block. -/
def memcpyToNvmm (mem : ℕ → ℕ → UInt8) (b offset n : ℕ) (src : ℕ → UInt8) : ℕ → ℕ → UInt8 :=
  Function.update mem b fun i =>
    if offset ≤ i ∧ i < offset + n then src (i - offset) else mem b i

/-- The bytes of a block from `low` on, below `high`, are cleared. -/
def memsetNt (mem : ℕ → ℕ → UInt8) (b low high : ℕ) : ℕ → ℕ → UInt8 :=
  Function.update mem b fun i => if low ≤ i ∧ i < high then 0 else mem b i

/-- `__pmfs_find_data_block` for a block that the tree may be too low for: at the height 0 it is the
root then, and else there is a word behind the root page. `none` if that is a pointer. -/
def findDataBlock (behind : ℕ → Bool) (f : File) (blocknr : ℕ) : Option (Option ℕ) :=
  if f.height = 0 ∨ f.root.isNull ∨ blocknr < 512 ^ f.height then some (f.root.find blocknr)
  else if behind (blocknr / 512 ^ (f.height - 1)) then none
  else some none

/-- `pmfs_clear_edge_blk`, for the bytes from `low` on, below `high`. -/
def clearEdgeBlk (behind : ℕ → Bool) (f : File) (newBlk : Bool) (block low high : ℕ)
    (mem : ℕ → ℕ → UInt8) : Option (ℕ → ℕ → UInt8) :=
  if newBlk then
    (findDataBlock behind f block).map fun
      | some b => memsetNt mem b low high
      | none => mem
  else some mem

/-- The start of the block is cleared, up to a multiple of 8. -/
def pmfsClearStartBlk (w : Write) (f : File) (newBlk : Bool) : (ℕ → ℕ → UInt8) →
    Option (ℕ → ℕ → UInt8) :=
  let offset := w.pos % 4096
  clearEdgeBlk w.behind f newBlk w.startBlk 0 (offset + (8 - offset % 8))

/-- The end of the block is cleared, from a multiple of 8. -/
def pmfsClearEndBlk (w : Write) (f : File) (newBlk : Bool) : (ℕ → ℕ → UInt8) →
    Option (ℕ → ℕ → UInt8) :=
  clearEdgeBlk w.behind f newBlk w.endBlk (w.eblkOffset - w.eblkOffset % 8) 4096

/-- The loop of `__pmfs_xip_file_write`, with `done` bytes written: the status that ends it, and how
much is written then. There are at most `n` blocks left. -/
def xipWriteLoop (w : Write) : (n done : ℕ) → File → Env → Option (Option Error × ℕ × File × Env)
  | 0, done, f, s => some (none, done, f, s)
  | n + 1, done, f, s =>
    let offset := (w.pos + done) % 4096
    let bytes := min (4096 - offset) (w.count - done)
    (pmfsGetXipMem true f ((w.pos + done) / 4096) s).bind fun
      | (.error e, f, s) => some (some e, done, f, s)
      | (.ok b, f, s) =>
        let copied := w.copied done bytes
        let s := { s with mem := memcpyToNvmm s.mem b offset copied fun i => w.buf (done + i) }
        if copied ≠ bytes then some (some .efault, done + copied, f, s)
        else if done + copied < w.count then xipWriteLoop w n (done + copied) f s
        else some (none, done + copied, f, s)

/-- The size is never set back. -/
def updateIsize (f : File) (pos : ℕ) : File := if f.iSize < pos then { f with iSize := pos } else f

/-- `__pmfs_xip_file_write`. -/
def xipFileWrite (w : Write) (f : File) (s : Env) : Option Written :=
  (xipWriteLoop w w.numBlocks 0 f s).map fun (status, written, f, s) =>
    { ret := if written = 0 then status.elim (.ok 0) .error else .ok written
      ppos := w.pos + written
      file := updateIsize f (w.pos + written)
      env := s }

/-- `pmfs_file_write_fast`, where the block is `b`. -/
def pmfsFileWriteFast (w : Write) (b : ℕ) (f : File) (s : Env) : Written :=
  let copied := w.copied 0 w.count
  { ret := if copied ≠ w.count ∧ copied = 0 then .error .efault else .ok copied
    ppos := w.pos + copied
    file := updateIsize f (w.pos + copied)
    env := { s with mem := memcpyToNvmm s.mem b (w.pos % 4096) copied w.buf } }

/-- The rest of `pmfs_xip_file_write`, in a transaction. The errors of the allocation are ignored.
-/
def pmfsWriteTransaction (w : Write) (f : File) (s : Env) : Option Written :=
  match w.newTransaction with
  | some e => some ⟨.error e, w.pos, f, s⟩
  | none =>
    match w.fileRemovePrivs f.iMode with
    | .error e => some ⟨.error e, w.pos, f, s⟩
    | .ok mode =>
      let f := { f with iMode := mode }
      let newSblk := decide (w.pos % 4096 ≠ 0) && (pmfsFindDataBlock f w.startBlk).isNone
      let newEblk := decide (w.eblkOffset ≠ 0) && (pmfsFindDataBlock f w.endBlk).isNone
      (pmfsAllocBlocks f w.startBlk w.numBlocks false s).bind fun (_, f, s) =>
        (pmfsClearStartBlk w f newSblk s.mem).bind fun mem =>
          (pmfsClearEndBlk w f newEblk mem).bind fun mem =>
            xipFileWrite w f { s with mem := mem }

/-- `pmfs_xip_file_write`. -/
def pmfsXipFileWrite (w : Write) (f : File) (s : Env) : Option Written :=
  if w.count = 0 then some ⟨.ok 0, w.pos, f, s⟩
  else
    match pmfsFindDataBlock f w.startBlk with
    | some b =>
      if w.sameBlock then some (pmfsFileWriteFast w b f s) else pmfsWriteTransaction w f s
    | none => pmfsWriteTransaction w f s

end Wpmfs.File
