import Wpmfs.File.Read
import Wpmfs.File.Runs

/-!
# A regular file is a flat array of bytes

What a file is for, apart from trees and blocks: a size, and a byte at each offset, with zeros past
the size. The calls that succeed, page faults, and stores to mapped pages refine it, whatever there
is in the blocks that an allocation gives.
-/

namespace Wpmfs.File

open Spans

/-- A size and the bytes. There is nothing but zeros past the size. -/
structure Flat where
  size : ℕ
  byte : ℕ → UInt8
  beyond : ∀ x, size ≤ x → byte x = 0

namespace Flat

def empty : Flat := ⟨0, fun _ => 0, fun _ _ => rfl⟩

/-- The bytes of a buffer are written at a position. -/
def write (a : Flat) (pos count : ℕ) (buf : ℕ → UInt8) : Flat where
  size := if count = 0 then a.size else max a.size (pos + count)
  byte x := if pos ≤ x ∧ x < pos + count then buf (x - pos) else a.byte x
  beyond x hx := by
    split at hx
    · rw [if_neg (by omega), a.beyond x hx]
    · rw [if_neg (by omega), a.beyond x (by omega)]

/-- The array is cut off, or zeros are added. -/
def resize (a : Flat) (n : ℕ) : Flat where
  size := n
  byte x := if x < n then a.byte x else 0
  beyond _ hx := if_neg (Nat.not_lt.mpr hx)

/-- Zeros are added, up to a size. -/
def extend (a : Flat) (n : ℕ) : Flat where
  size := max a.size n
  byte := a.byte
  beyond x hx := a.beyond x (by omega)

variable {a : Flat} {pos count n : ℕ} {buf : ℕ → UInt8}

theorem size_write (hcount : 0 < count) : (a.write pos count buf).size = max a.size (pos + count) :=
  if_neg hcount.ne'

theorem write_zero (x : ℕ) : (a.write pos 0 buf).size = a.size ∧
    (a.write pos 0 buf).byte x = a.byte x :=
  ⟨rfl, if_neg (by omega)⟩

end Flat

/-- A file, with the bytes of the blocks. -/
structure Stored where
  file : File
  mem : ℕ → ℕ → UInt8

/-- `pmfs_block_truncate_page`. -/
def pmfsBlockTruncatePage (f : File) (newsize : ℕ) (mem : ℕ → ℕ → UInt8) : ℕ → ℕ → UInt8 :=
  if newsize % 4096 = 0 ∨ f.iSize < newsize then mem
  else
    match pmfsFindDataBlock f (newsize / 4096) with
    | none => mem
    | some b => memsetNt mem b (newsize % 4096) 4096

namespace Stored

/-- `pmfs_notify_change`, with the bytes that `pmfs_setsize` clears. -/
def notifyChange (st : Stored) (newsize : ℕ) : Option Stored :=
  (pmfsNotifyChange st.file newsize).map fun (_, f) =>
    ⟨f, if newsize ≠ st.file.iSize then pmfsBlockTruncatePage st.file newsize st.mem else st.mem⟩

/-- The array is the file. -/
structure Represents (st : Stored) (a : Flat) : Prop where
  size : st.file.iSize = a.size
  byte : ∀ x, contents st.file st.mem x = a.byte x

/-- A step of the file, and what it is for the array. For each call the allocator may answer as it
likes, with blocks that are not in use. The writes have blocks for all of their range and copy all
bytes. A page fault is for a page of the file, and so is a store to a mapped page. What is in the
blocks of others may change. -/
inductive Step (st : Stored) (a : Flat) : Stored → Flat → Prop
  | write (w : Write) {s : Env} {r : Written} (hgives : s.Gives (st.file.root.entries.map Prod.snd))
      (hgranted : ∀ err f' s', pmfsAllocBlocks st.file w.startBlk w.numBlocks false
        { s with mem := st.mem } = some (err, f', s') → err = none)
      (hrun : pmfsXipFileWrite w st.file { s with mem := st.mem } = some r)
      (hret : r.ret = .ok w.count) : Step st a ⟨r.file, r.env.mem⟩ (a.write w.pos w.count w.buf)
  | fallocate (keepSize : Bool) (offset : ℕ) {len : ℕ} {s s' : Env} {err : Option Error} {f' : File}
      (hgives : s.Gives (st.file.root.entries.map Prod.snd)) (hlen : 0 < len)
      (hrun : pmfsFallocate st.file keepSize offset len none { s with mem := st.mem } =
        some (err, f', s')) :
      Step st a ⟨f', s'.mem⟩ (if keepSize then a else a.extend (offset + len))
  | setSize {n : ℕ} {st' : Stored} (hrun : st.notifyChange n = some st') :
      Step st a st' (a.resize n)
  | fault {pgoff : ℕ} {s s' : Env} {ret : Except Error ℕ} {f' : File}
      (hgives : s.Gives (st.file.root.entries.map Prod.snd)) (hpage : pgoff * 4096 < st.file.iSize)
      (hrun : pmfsGetXipMem true st.file pgoff { s with mem := st.mem } = some (ret, f', s')) :
      Step st a ⟨f', s'.mem⟩ a
  | store {x b : ℕ} (v : UInt8) (hx : x < st.file.iSize)
      (hb : pmfsFindDataBlock st.file (x / 4096) = some b) :
      Step st a ⟨st.file, memcpyToNvmm st.mem b (x % 4096) 1 fun _ => v⟩ (a.write x 1 fun _ => v)
  | others {mem : ℕ → ℕ → UInt8}
      (hmem : ∀ k b, pmfsFindDataBlock st.file k = some b → mem b = st.mem b) :
      Step st a ⟨st.file, mem⟩ a

/-- The files that such steps make of a new one, with the arrays. -/
inductive Reached : Stored → Flat → Prop
  | new (mode : ℕ) (mem : ℕ → ℕ → UInt8) : Reached ⟨⟨0, .null, 0, 0, false, mode⟩, mem⟩ .empty
  | step {st st' : Stored} {a a' : Flat} (hrun : Reached st a) (hstep : Step st a st' a') :
      Reached st' a'

end Stored

variable {f f' : File} {st st' : Stored} {a a' : Flat} {s s' : Env} {w : Write} {r : Written}
  {mem : ℕ → ℕ → UInt8} {k n x b : ℕ}

theorem contents_congr (hfind : pmfsFindDataBlock f' (x / 4096) = pmfsFindDataBlock f (x / 4096)) :
    contents f' mem x = contents f mem x := by
  rw [contents, contents, hfind]

/-- A read of some bytes. -/
theorem reads_of_pos {pos len : ℕ} (hlen : 0 < len) : Reads f mem pos len := by
  have hpos : pos / 4096 * 4096 + pos % 4096 = pos := Nat.div_add_mod' pos 4096
  rw [Reads, doXipMappingRead]
  by_cases hisize : f.iSize = 0
  · rw [if_pos hisize, hisize, Nat.zero_sub, Nat.min_zero]
    rfl
  · have hmod : pos % 4096 < 4096 := Nat.mod_lt _ (by decide)
    have hout : (xipReadLoop f mem len (len / 4096 + 2) (pos / 4096) (pos % 4096) [] none).1 =
        bytesAt f mem pos (min len (f.iSize - pos)) :=
      xipReadLoop_out (c := 0) (by omega) hmod hpos (Nat.zero_le _) (.inr (by omega))
    rw [if_neg hisize]
    dsimp only
    rw [hout, length_bytesAt]
    by_cases hzero : min len (f.iSize - pos) = 0
    · rw [hzero, if_pos rfl, xipReadLoop_nothing mem (by omega) hmod (by rwa [hpos]), hpos,
        if_pos (by omega)]
      rfl
    · rw [if_neg hzero]

/-! ## Writes -/

/-- A write that reports a count has gone through a transaction. -/
theorem pmfsWriteTransaction_goes (hrun : pmfsWriteTransaction w f s = some r)
    (hret : r.ret = .ok n) :
    w.newTransaction = none ∧ ∃ mode, w.fileRemovePrivs f.iMode = .ok mode := by
  refine goes_through fun ⟨e, hfails⟩ => ?_
  rw [pmfsWriteTransaction] at hrun
  rcases hfails with hfails | ⟨hfails, hprivs⟩
  · rw [hfails] at hrun
    cases hrun
    cases hret
  · rw [hfails] at hrun
    dsimp only at hrun
    rw [hprivs] at hrun
    cases hrun
    cases hret

theorem xipFileWrite_iSize (hs : Sound f s) (hcount : 0 < w.count)
    (hrun : xipFileWrite w f s = some r) (hret : r.ret = .ok w.count) :
    r.file.iSize = max f.iSize (w.pos + w.count) := by
  obtain ⟨status, written, f₂, s₂, hloop, hlooped⟩ := xipWriteLoop_looped (w := w)
    (n := w.numBlocks) hs hcount (by rw [Write.numBlocks]; omega)
  rw [xipFileWrite, hloop, Option.map_some] at hrun
  cases hrun
  have hwritten : written = w.count := by
    dsimp only at hret
    split at hret
    · cases status with
      | none =>
        have := Except.ok.inj hret
        omega
      | some e => cases hret
    · exact Except.ok.inj hret
  dsimp only
  rw [updateIsize_eq, hwritten, hlooped.iSize]

/-- A write of all its bytes, to blocks that are all there. -/
theorem pmfsWriteTransaction_flat (hs : Sound f s) (hcount : 0 < w.count)
    (hgranted : ∀ err f' s', pmfsAllocBlocks f w.startBlk w.numBlocks false s = some (err, f', s') →
      err = none)
    (hrun : pmfsWriteTransaction w f s = some r) (hret : r.ret = .ok w.count) :
    contents r.file r.env.mem x =
      if w.pos ≤ x ∧ x < w.pos + w.count then w.buf (x - w.pos) else contents f s.mem x := by
  obtain ⟨htrans, mode, hprivs⟩ := pmfsWriteTransaction_goes hrun hret
  obtain ⟨err, f', s', halloc, hall, hstray, hran⟩ :=
    pmfsWriteTransaction_ran hs hcount htrans hprivs
  obtain rfl := hgranted err f' s' halloc
  have hnot : ¬w.Strays f f' := fun h => by
    rw [hstray h] at hrun
    cases hrun
  obtain ⟨r', hrun', hran⟩ := hran hnot
  rw [hrun] at hrun'
  cases hrun'
  have hwritten : r.written = w.count := by rw [Written.written, hret]
  have hend := w.endBlk_eq hcount
  have hle : w.startBlk ≤ w.endBlk := by
    rw [hend, Write.startBlk]
    omega
  have hlt : w.endBlk < 512 ^ f'.height := by
    have hfound := hall.found rfl w.endBlk hle le_rfl
    rw [pmfsFindDataBlock_eq] at hfound
    exact lt_of_ptr hfound
  split
  · rename_i hin
    rw [hran.contents, hwritten, if_pos hin]
  · rename_i hout
    refine hran.contents_eq hcount hlt hall (by rwa [hwritten]) fun hnone hnew => ?_
    obtain ⟨hstart, hlast⟩ := hall.within _ hnone hnew
    rw [Write.startBlk] at hstart
    -- The byte is on an edge of the range.
    refine (clears_iff hcount hlt).mpr ⟨hnone, ?_⟩
    omega

theorem pmfsXipFileWrite_flat (hs : Sound f s) (hcount : 0 < w.count)
    (hgranted : ∀ err f' s', pmfsAllocBlocks f w.startBlk w.numBlocks false s = some (err, f', s') →
      err = none)
    (hrun : pmfsXipFileWrite w f s = some r) (hret : r.ret = .ok w.count) :
    contents r.file r.env.mem x =
      if w.pos ≤ x ∧ x < w.pos + w.count then w.buf (x - w.pos) else contents f s.mem x := by
  have htrans := fun h : pmfsWriteTransaction w f s = some r =>
    pmfsWriteTransaction_flat (x := x) hs hcount hgranted h hret
  rw [pmfsXipFileWrite, if_neg hcount.ne'] at hrun
  split at hrun
  · rename_i b hb
    split at hrun
    · rename_i hsame
      cases hrun
      have hzero : (w.count + w.pos % 4096 - 1) / 4096 = 0 := by simpa [Write.sameBlock] using hsame
      have hcopied : w.copied 0 w.count = w.count := by
        have hwritten := written_pmfsFileWriteFast w b f s
        rw [Written.written, hret] at hwritten
        exact hwritten.symm
      rw [pmfsFileWriteFast]
      dsimp only
      rw [contents_updateIsize, contents_memcpyToNvmm hs.1 hb (by omega), hcopied]
    · exact htrans hrun
  · exact htrans hrun

theorem pmfsWriteTransaction_iSize (hs : Sound f s) (hcount : 0 < w.count)
    (hrun : pmfsWriteTransaction w f s = some r) (hret : r.ret = .ok w.count) :
    r.file.iSize = max f.iSize (w.pos + w.count) := by
  obtain ⟨htrans, mode, hprivs⟩ := pmfsWriteTransaction_goes hrun hret
  have hs' : Sound { f with iMode := mode } s :=
    ⟨⟨hs.1.height_le, hs.1.null, hs.1.nodup, hs.1.nonzero⟩, hs.2⟩
  rw [pmfsWriteTransaction, htrans] at hrun
  dsimp only at hrun
  rw [hprivs] at hrun
  dsimp only at hrun
  obtain ⟨⟨err, f₁, s₁⟩, halloc, hrun⟩ := Option.bind_eq_some_iff.mp hrun
  obtain ⟨mem, -, hrun⟩ := Option.bind_eq_some_iff.mp hrun
  obtain ⟨mem', -, hrun⟩ := Option.bind_eq_some_iff.mp hrun
  obtain ⟨err', f₁', s₁', halloc', hall⟩ := pmfsAllocBlocks_allocated false hs'
    (show 0 < w.numBlocks from Nat.succ_pos _) w.startBlk
  rw [halloc'] at halloc
  cases halloc
  rw [xipFileWrite_iSize (hall.sound.withMem mem') hcount hrun hret, hall.iSize]

theorem pmfsXipFileWrite_iSize (hs : Sound f s) (hcount : 0 < w.count)
    (hrun : pmfsXipFileWrite w f s = some r) (hret : r.ret = .ok w.count) :
    r.file.iSize = max f.iSize (w.pos + w.count) := by
  rw [pmfsXipFileWrite, if_neg hcount.ne'] at hrun
  split at hrun
  · rename_i b hb
    split at hrun
    · cases hrun
      have hcopied : w.copied 0 w.count = w.count := by
        have hwritten := written_pmfsFileWriteFast w b f s
        rw [Written.written, hret] at hwritten
        exact hwritten.symm
      rw [pmfsFileWriteFast]
      dsimp only
      rw [updateIsize_eq, hcopied]
    · exact pmfsWriteTransaction_iSize hs hcount hrun hret
  · exact pmfsWriteTransaction_iSize hs hcount hrun hret

/-- The end of the file is past the blocks of a write of all bytes. -/
theorem pmfsXipFileWrite_counted (hf : f.Counted) (hs : Sound f s) (hcount : 0 < w.count)
    (hrun : pmfsXipFileWrite w f s = some r) (hret : r.ret = .ok w.count) : r.file.Counted := by
  have hwrote := pmfsXipFileWrite_wrote hs hcount hrun
  refine hwrote.extended.counted hf hwrote.iSize_le (.inr fun k hnone hnew => ?_)
  rcases hwrote.extended.meets 0 k hnone hnew with ⟨hl, -⟩ | hmeets
  · exact absurd hl (Nat.not_lt_zero _)
  · have hlast := (meets_zero.mp hmeets).2
    have hsize := hwrote.size _ hret
    rw [w.endBlk_eq hcount] at hlast
    omega

/-! ## Changes of the size -/

/-- The size changes, and the blocks past the new one go. -/
theorem pmfsNotifyChange_kept {out : List (ℕ × ℕ)} (hf : f.Counted)
    (hrun : pmfsNotifyChange f n = some (out, f')) :
    f'.iSize = n ∧ (∀ k, k < truncateFirst n → pmfsFindDataBlock f' k = pmfsFindDataBlock f k) ∧
      ∀ k, truncateFirst n ≤ k → pmfsFindDataBlock f' k = none := by
  have hdata : ∀ k, pmfsFindDataBlock f k ≠ none →
      ∃ last, f.truncateLast f.iSize = some last ∧ k ≤ last := by
    intro k hk
    rw [pmfsFindDataBlock_eq] at hk
    cases hlast : f.truncateLast f.iSize with
    | some last => exact ⟨last, rfl, hf.inside.dataBy hlast k hk⟩
    | none =>
      -- Without the flag an empty file has no blocks.
      rw [truncateLast] at hlast
      split at hlast
      · cases hlast
      · rename_i heof
        split at hlast
        · have := hf.inside (by simpa using heof) k hk
          omega
        · cases hlast
  rw [pmfsNotifyChange] at hrun
  split at hrun
  · have hwell : WellFormed { f with iSize := n } := ⟨hf.wellFormed.height_le, hf.wellFormed.null,
      hf.wellFormed.nodup, hf.wellFormed.nonzero⟩
    rw [pmfsSetsize] at hrun
    rcases pmfsTruncateBlocks_cases (f := { f with iSize := n }) (.inr hf.count) hrun with
      ⟨-, rfl, hnone⟩ | ⟨last, u, t, freed, pages, lost, hlast, hcuts⟩
    · refine ⟨rfl, fun _ _ => rfl, fun k hk => ?_⟩
      by_contra hfound
      obtain ⟨last, hlast, hle⟩ := hdata k hfound
      rcases hnone with hnull | hnone
      · have hptr := hfound
        rw [pmfsFindDataBlock_eq] at hptr
        rw [ptr_of_lt (lt_of_ptr hptr), hnull, Slot.ptr_null] at hptr
        exact hptr rfl
      · have := hnone last hlast
        omega
    · have hlast' : f.truncateLast f.iSize = some last := hlast
      refine ⟨by rw [hcuts.file, checkEofBlocks_eq], (hcuts.truncated hwell hlast).below,
        fun k hk => ?_⟩
      by_contra hleft
      rw [pmfsFindDataBlock_eq] at hleft
      obtain ⟨hlt, hptr⟩ := hcuts.ptr_left hleft
      have hdataBy : DataBy { f with iSize := n } last := (hf.inside.dataBy hlast' : f.DataBy last)
      have := hcuts.data_before hdataBy hlt hptr
      omega
  · rename_i hsame
    cases hrun
    refine ⟨by tauto, fun _ _ => rfl, fun k hk => ?_⟩
    by_contra hfound
    rw [pmfsFindDataBlock_eq] at hfound
    have hinside := hf.inside (by simpa using fun h => hsame (.inr h)) k hfound
    rw [truncateFirst] at hk
    have hsize : n = f.iSize := by tauto
    omega

/-- The page that is cut in two reads as zeros past the new end. -/
theorem contents_pmfsBlockTruncatePage (hf : f.WellFormed) (hx : x / 4096 < truncateFirst n)
    (hzero : ∀ x, f.iSize ≤ x → contents f mem x = 0) :
    contents f (pmfsBlockTruncatePage f n mem) x = if x < n then contents f mem x else 0 := by
  rw [truncateFirst] at hx
  rw [pmfsBlockTruncatePage]
  by_cases hsame : n % 4096 = 0 ∨ f.iSize < n
  · rw [if_pos hsame]
    split
    · rfl
    · exact hzero x (by omega)
  · rw [if_neg hsame]
    cases hb : pmfsFindDataBlock f (n / 4096) with
    | none =>
      dsimp only
      split
      · rfl
      · exact contents_of_none (by rwa [show x / 4096 = n / 4096 by omega])
    | some b =>
      dsimp only
      rw [contents_memsetNt hf hb]
      by_cases hlt : x < n
      · rw [if_pos hlt, if_neg (by omega)]
      · rw [if_neg hlt, if_pos (by omega)]

namespace Stored

theorem notifyChange_flat (hf : st.file.Counted)
    (hzero : ∀ x, st.file.iSize ≤ x → contents st.file st.mem x = 0)
    (hrun : st.notifyChange n = some st') :
    st'.file.Counted ∧ st'.file.iSize = n ∧ ∀ x, contents st'.file st'.mem x =
      if x < n then contents st.file st.mem x else 0 := by
  obtain ⟨⟨out, f'⟩, hchange, rfl⟩ := Option.map_eq_some_iff.mp hrun
  obtain ⟨hsize, hbelow, hgone⟩ := pmfsNotifyChange_kept hf hchange
  dsimp only
  refine ⟨(pmfsNotifyChange_counted hf hchange).1, hsize, fun x => ?_⟩
  by_cases hx : x / 4096 < truncateFirst n
  · rw [contents_congr (hbelow _ hx)]
    by_cases hn : n = st.file.iSize
    · rw [if_neg (not_not.mpr hn)]
      split
      · rfl
      · exact hzero x (by omega)
    · rw [if_pos hn]
      exact contents_pmfsBlockTruncatePage hf.wellFormed hx hzero
  · have hout : ¬x < n := by
      rw [truncateFirst] at hx
      omega
    rw [contents_of_none (hgone _ (by omega)), if_neg hout]

/-! ## Steps and runs -/

/-- What holds of a file and its array between the steps. -/
structure Inv (st : Stored) (a : Flat) : Prop where
  counted : st.file.Counted
  represents : st.Represents a

theorem Inv.beyond (h : Inv st a) (hx : st.file.iSize ≤ x) : contents st.file st.mem x = 0 := by
  rw [h.represents.byte]
  exact a.beyond x (h.represents.size ▸ hx)

/-- A file that only got blocks of zeros, and a size. -/
theorem Inv.extended {n : ℕ} (h : Inv st a) (hcounted : f'.Counted) (hsize : f'.iSize = n)
    (hbyte : ∀ x, contents f' mem x = contents st.file st.mem x) {a' : Flat} (hn : a'.size = n)
    (ha : a'.byte = a.byte) : Inv ⟨f', mem⟩ a' :=
  ⟨hcounted, hsize.trans hn.symm, fun x => by rw [hbyte, h.represents.byte, ha]⟩

theorem Inv.write (h : Inv st a) (hgives : s.Gives (st.file.root.entries.map Prod.snd))
    (hgranted : ∀ err f' s', pmfsAllocBlocks st.file w.startBlk w.numBlocks false
      { s with mem := st.mem } = some (err, f', s') → err = none)
    (hrun : pmfsXipFileWrite w st.file { s with mem := st.mem } = some r)
    (hret : r.ret = .ok w.count) : Inv ⟨r.file, r.env.mem⟩ (a.write w.pos w.count w.buf) := by
  have hs : Sound st.file { s with mem := st.mem } :=
    ⟨h.counted.wellFormed, hgives.inj, hgives.fresh⟩
  rcases Nat.eq_zero_or_pos w.count with hzero | hcount
  · rw [pmfsXipFileWrite, if_pos hzero] at hrun
    cases hrun
    rw [hzero]
    refine h.extended h.counted rfl (fun _ => rfl) ?_ (funext fun x => (Flat.write_zero x).2)
    exact (Flat.write_zero 0).1.trans h.represents.size.symm
  · refine ⟨pmfsXipFileWrite_counted h.counted hs hcount hrun hret, ?_, fun x => ?_⟩
    · rw [pmfsXipFileWrite_iSize hs hcount hrun hret, Flat.size_write hcount, h.represents.size]
    · rw [pmfsXipFileWrite_flat hs hcount hgranted hrun hret, h.represents.byte]
      rfl

theorem Inv.fallocate {keepSize : Bool} {offset len : ℕ} {err : Option Error} (h : Inv st a)
    (hgives : s.Gives (st.file.root.entries.map Prod.snd)) (hlen : 0 < len)
    (hrun : pmfsFallocate st.file keepSize offset len none { s with mem := st.mem } =
      some (err, f', s')) :
    Inv ⟨f', s'.mem⟩ (if keepSize then a else a.extend (offset + len)) := by
  have hs : Sound st.file { s with mem := st.mem } :=
    ⟨h.counted.wellFormed, hgives.inj, hgives.fresh⟩
  have hcounted := (pmfsFallocate_reserved hs hlen hrun).counted hlen h.counted
  obtain ⟨err₁, f₁, s₁, halloc, hall⟩ := pmfsAllocBlocks_allocated true hs
    (show 0 < (offset % 4096 + len + 4095) / 4096 by omega) (offset / 4096)
  dsimp only [pmfsFallocate] at hrun
  rw [halloc, Option.map_some] at hrun
  cases hrun
  have hsize := hall.iSize
  refine h.extended (n := (if keepSize then a else a.extend (offset + len)).size) hcounted ?_
    (fun x => ?_) rfl ?_
  · have := h.represents.size
    cases keepSize <;> simp [Flat.extend] <;> grind
  · rw [← hall.contents_eq (x := x)]
    refine contents_congr ?_
    grind [pmfsFindDataBlock]
  · cases keepSize <;> rfl

theorem Inv.fault {pgoff : ℕ} {ret : Except Error ℕ} (h : Inv st a)
    (hgives : s.Gives (st.file.root.entries.map Prod.snd)) (hpage : pgoff * 4096 < st.file.iSize)
    (hrun : pmfsGetXipMem true st.file pgoff { s with mem := st.mem } = some (ret, f', s')) :
    Inv ⟨f', s'.mem⟩ a := by
  have hs : Sound st.file { s with mem := st.mem } :=
    ⟨h.counted.wellFormed, hgives.inj, hgives.fresh⟩
  obtain ⟨ret', f'', s'', hrun', hgot⟩ := pmfsGetXipMem_got hs pgoff
  rw [hrun] at hrun'
  cases hrun'
  have hext := (pmfsGetXipMem_extended hs hrun).1
  refine h.extended (hext.counted h.counted hgot.iSize.ge (.inr fun k hnone hnew => ?_)) hgot.iSize
    hgot.contents h.represents.size.symm rfl
  rcases hext.meets 0 k hnone hnew with ⟨hl, -⟩ | hmeets
  · exact absurd hl (Nat.not_lt_zero _)
  · obtain ⟨hge, hle⟩ := meets_zero.mp hmeets
    rw [le_antisymm hle hge, hgot.iSize]
    exact hpage

/-- A store to a mapped page is a write of one byte. -/
theorem Inv.store (h : Inv st a) (v : UInt8) (hx : x < st.file.iSize)
    (hb : pmfsFindDataBlock st.file (x / 4096) = some b) :
    Inv ⟨st.file, memcpyToNvmm st.mem b (x % 4096) 1 fun _ => v⟩ (a.write x 1 fun _ => v) := by
  refine ⟨h.counted, ?_, fun y => ?_⟩
  · have hsize := h.represents.size
    rw [Flat.size_write Nat.one_pos, Nat.max_eq_left (by omega)]
    exact hsize
  · dsimp only
    rw [contents_memcpyToNvmm h.counted.wellFormed hb (by omega), h.represents.byte]
    rfl

theorem Inv.step (h : Inv st a) (hstep : Step st a st' a') : Inv st' a' := by
  cases hstep with
  | write w hgives hgranted hrun hret => exact h.write hgives hgranted hrun hret
  | fallocate keepSize offset hgives hlen hrun => exact h.fallocate hgives hlen hrun
  | setSize hrun =>
    obtain ⟨hcounted, hsize, hbyte⟩ := notifyChange_flat h.counted (fun _ => h.beyond) hrun
    refine ⟨hcounted, hsize, fun x => ?_⟩
    rw [hbyte, h.represents.byte]
    rfl
  | fault hgives hpage hrun => exact h.fault hgives hpage hrun
  | store v hx hb => exact h.store v hx hb
  | others hmem =>
    refine ⟨h.counted, h.represents.size, fun x => ?_⟩
    rw [← h.represents.byte]
    cases hb : pmfsFindDataBlock st.file (x / 4096) with
    | none => rw [contents_of_none hb, contents_of_none hb]
    | some b => exact (contents_of_some hb).trans (by rw [contents_of_some hb, ← hmem _ b hb])

theorem Reached.inv (h : Reached st a) : Inv st a := by
  induction h with
  | new mode mem =>
    refine ⟨new_counted mode, rfl, fun x => contents_of_none ?_⟩
    rw [pmfsFindDataBlock_eq]
    simp [ptr, treePtr]
  | step _ hstep ih => exact ih.step hstep

end Stored

end Wpmfs.File
