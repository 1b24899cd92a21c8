import Wpmfs.File.Write

/-!
# The fast path of a write

Where the block is there, the transaction allocates nothing and copies what the fast path copies.
But it removes the privileges of the file, and it may not start.
-/

namespace Wpmfs.File

variable {f : File} {s : Env} {w : Write} {h k b blocknr : ℕ} {zero : Bool}

/-! ## Allocations of what is there -/

/-- The loop over one slot, which stays. -/
theorem allocSlots_one {slot : ℕ → Slot h → Heap → Alloc (Slot h)} {node : ℕ → Slot h} {t : Heap}
    {i : ℕ} (hslot : slot i (node i) t = ⟨node i, none, t⟩) :
    allocSlots slot 1 i node t = ⟨node, none, t⟩ := by
  rw [allocSlots, hslot]
  dsimp only
  rw [Function.update_eq_self, allocSlots]

theorem recursiveAllocBlocks_present {node : ℕ → Slot h} {t : Heap}
    (hk : (node (k / 512 ^ h)).ptr 0 (k % 512 ^ h) ≠ none) :
    recursiveAllocBlocks zero h node k k t = ⟨node, none, t⟩ := by
  induction h generalizing k with
  | zero =>
    rw [recursiveAllocBlocks, Nat.add_sub_cancel_left]
    refine allocSlots_one ?_
    rw [pow_zero, Nat.div_one] at hk
    rw [allocData, if_neg]
    intro hnull
    rw [Slot.isNull_iff.mp hnull] at hk
    exact hk Slot.ptr_null
  | succ h ih =>
    rw [recursiveAllocBlocks]
    dsimp only
    rw [Nat.add_sub_cancel_left]
    refine allocSlots_one ?_
    revert hk
    cases node (k / 512 ^ (h + 1)) with
    | null => exact fun hk => absurd Slot.ptr_null hk
    | page b node =>
      intro hk
      rw [Slot.ptr_page_of_le (Nat.zero_le h)] at hk
      simp only [if_true, ih hk]

theorem pmfsAllocBlocks_present (hk : pmfsFindDataBlock f k ≠ none) :
    pmfsAllocBlocks f k 1 zero s = some (none, f, s) := by
  rw [pmfsFindDataBlock_eq] at hk
  have hlt := lt_of_ptr hk
  rw [ptr_of_lt hlt] at hk
  obtain ⟨height, root, iSize, iBlocks, eofblocks, iMode⟩ := f
  dsimp only at hlt hk
  have hheight : heightFor height k = height := if_neg (by omega)
  rw [pmfsAllocBlocks]
  dsimp only
  rw [Nat.add_sub_cancel, hheight, if_neg (by omega)]
  cases root with
  | null => exact absurd Slot.ptr_null hk
  | data b => rfl
  | @page h b node =>
    rw [if_neg (Nat.succ_ne_zero h), Nat.sub_self, pmfsIncreaseBtreeHeight]
    dsimp only
    rw [allocTree, recursiveAllocBlocks_present]
    · rfl
    · rwa [Slot.ptr_page_of_le (Nat.zero_le h)] at hk

/-! ## The two paths -/

theorem Write.endBlk_of_sameBlock (hsame : w.sameBlock = true) :
    w.numBlocks = 1 ∧ w.endBlk = w.startBlk := by
  have hzero : (w.count + w.pos % 4096 - 1) / 4096 = 0 := by simpa [sameBlock] using hsame
  simp [endBlk, numBlocks, hzero]

theorem xipFileWrite_present (hcount : 0 < w.count) (hsame : w.sameBlock = true)
    (hb : pmfsFindDataBlock f w.startBlk = some b) :
    xipFileWrite w f s = some (pmfsFileWriteFast w b f s) := by
  have hzero : (w.count + w.pos % 4096 - 1) / 4096 = 0 := by simpa [Write.sameBlock] using hsame
  have hbytes : min (4096 - w.pos % 4096) w.count = w.count := by omega
  rw [xipFileWrite, (Write.endBlk_of_sameBlock hsame).1, xipWriteLoop, pmfsGetXipMem]
  simp only [Nat.add_zero, Nat.sub_zero, Nat.zero_add]
  rw [show pmfsFindDataBlock f (w.pos / 4096) = some b from hb]
  dsimp only [Option.bind_some]
  rw [hbytes, pmfsFileWriteFast]
  have hle : w.copied 0 w.count ≤ w.count := Nat.min_le_left ..
  split
  · rename_i hne
    by_cases hcopied : w.copied 0 w.count = 0
    · simp [hcopied, hcount.ne]
    · simp [hcopied]
  · rename_i heq
    have heq : w.copied 0 w.count = w.count := by simpa using heq
    simp [heq, hcount.ne']

/-- With nothing to remove, and a transaction, the paths are one. -/
theorem pmfsWriteTransaction_present {mode : ℕ} (hcount : 0 < w.count) (hsame : w.sameBlock = true)
    (hb : pmfsFindDataBlock f w.startBlk = some b) (htrans : w.newTransaction = none)
    (hprivs : w.fileRemovePrivs f.iMode = .ok mode) :
    pmfsWriteTransaction w f s = some (pmfsFileWriteFast w b { f with iMode := mode } s) := by
  have hmode : pmfsFindDataBlock { f with iMode := mode } w.startBlk = some b := hb
  obtain ⟨hnum, hend⟩ := Write.endBlk_of_sameBlock hsame
  rw [pmfsWriteTransaction, htrans]
  dsimp only
  rw [hprivs]
  dsimp only
  rw [hend, hnum, hmode, pmfsAllocBlocks_present (by rw [hmode]; nofun)]
  simp only [Option.isNone_some, Bool.and_false, Option.bind_some, pmfsClearStartBlk,
    pmfsClearEndBlk, clearEdgeBlk, Bool.false_eq_true, if_false]
  exact xipFileWrite_present hcount hsame hmode

/-- The transaction ends with the error. -/
def Fails (w : Write) (f : File) (e : Error) : Prop :=
  w.newTransaction = some e ∨ w.newTransaction = none ∧ w.fileRemovePrivs f.iMode = .error e

/-- The calls cannot be told apart by what they return, and leave. -/
structure Agrees (r r' : Written) : Prop where
  ret : r.ret = r'.ret
  ppos : r.ppos = r'.ppos
  iSize : r.file.iSize = r'.file.iSize
  iMode : r.file.iMode = r'.file.iMode
  contents : ∀ x, contents r.file r.env.mem x = contents r'.file r'.env.mem x

@[simp] theorem updateIsize_iSize (f : File) (n : ℕ) : (updateIsize f n).iSize = max f.iSize n := by
  rw [updateIsize]
  split <;> grind

@[simp] theorem updateIsize_iMode (f : File) (n : ℕ) : (updateIsize f n).iMode = f.iMode := by
  rw [updateIsize]
  split <;> rfl

theorem memcpyToNvmm_nothing (mem : ℕ → ℕ → UInt8) (b offset : ℕ) (src : ℕ → UInt8) :
    memcpyToNvmm mem b offset 0 src = mem := by
  rw [memcpyToNvmm]
  refine Function.update_eq_iff.mpr ⟨funext fun i => if_neg (by omega), fun _ _ => rfl⟩

/-- A call that fails leaves the file as the fast path does if that copies nothing, and says the
same. -/
theorem pmfsFileWriteFast_agrees_error (hcount : 0 < w.count) (e : Error) :
    Agrees (pmfsFileWriteFast w b f s) ⟨.error e, w.pos, f, s⟩ ↔
      e = .efault ∧ w.readable = 0 ∧ w.pos ≤ f.iSize := by
  constructor
  · intro h
    have hret := h.ret
    have hisize := h.iSize
    rw [pmfsFileWriteFast] at hret hisize
    dsimp only at hret hisize
    split at hret
    · rename_i hcopied
      rw [hcopied.2, Nat.add_zero, updateIsize_iSize] at hisize
      have hreadable : min w.count (w.readable - 0) = 0 := hcopied.2
      exact ⟨(Except.error.inj hret).symm, by omega, by omega⟩
    · cases hret
  · rintro ⟨rfl, hreadable, hpos⟩
    have hcopied : w.copied 0 w.count = 0 := by simp [Write.copied, hreadable]
    rw [pmfsFileWriteFast, hcopied]
    refine ⟨if_pos ⟨hcount.ne, rfl⟩, Nat.add_zero _, ?_, updateIsize_iMode _ _, fun x => ?_⟩
    · rw [updateIsize_iSize]
      exact Nat.max_eq_left hpos
    · rw [contents_updateIsize, memcpyToNvmm_nothing]

/-- The fast path does what the transaction would do if and only if that starts, and has no
privileges to remove; or both fail, with the same error. -/
theorem pmfsFileWriteFast_agrees_iff (hcount : 0 < w.count) (hsame : w.sameBlock = true)
    (hb : pmfsFindDataBlock f w.startBlk = some b) :
    (∃ r r', pmfsXipFileWrite w f s = some r ∧ pmfsWriteTransaction w f s = some r' ∧ Agrees r r') ↔
      w.newTransaction = none ∧ w.fileRemovePrivs f.iMode = .ok f.iMode ∨
      Fails w f .efault ∧ w.readable = 0 ∧ w.pos ≤ f.iSize := by
  have hfast : pmfsXipFileWrite w f s = some (pmfsFileWriteFast w b f s) := by
    rw [pmfsXipFileWrite, if_neg hcount.ne', hb]
    exact if_pos hsame
  have hagrees : ∀ r', pmfsWriteTransaction w f s = some r' →
      ((∃ r r', pmfsXipFileWrite w f s = some r ∧ pmfsWriteTransaction w f s = some r' ∧
        Agrees r r') ↔ Agrees (pmfsFileWriteFast w b f s) r') := by
    intro r' hr'
    rw [hfast, hr']
    simp
  cases htrans : w.newTransaction with
  | some e =>
    have hrun : pmfsWriteTransaction w f s = some ⟨.error e, w.pos, f, s⟩ := by
      rw [pmfsWriteTransaction, htrans]
    rw [hagrees _ hrun, pmfsFileWriteFast_agrees_error hcount, Fails, htrans]
    simp
  | none =>
    cases hprivs : w.fileRemovePrivs f.iMode with
    | error e =>
      have hrun : pmfsWriteTransaction w f s = some ⟨.error e, w.pos, f, s⟩ := by
        rw [pmfsWriteTransaction, htrans]
        dsimp only
        rw [hprivs]
      rw [hagrees _ hrun, pmfsFileWriteFast_agrees_error hcount, Fails, htrans, hprivs]
      simp
    | ok mode =>
      rw [hagrees _ (pmfsWriteTransaction_present hcount hsame hb htrans hprivs), Fails, htrans,
        hprivs]
      have hmode : Agrees (pmfsFileWriteFast w b f s)
          (pmfsFileWriteFast w b { f with iMode := mode } s) ↔ mode = f.iMode := by
        constructor
        · intro h
          have himode := h.iMode
          rw [pmfsFileWriteFast, pmfsFileWriteFast, updateIsize_iMode, updateIsize_iMode] at himode
          exact himode.symm
        · rintro rfl
          exact ⟨rfl, rfl, rfl, rfl, fun _ => rfl⟩
      rw [hmode]
      simp

/-- One byte of one block. -/
theorem pmfsFileWriteFast_agrees_byte : ∃ r r',
    pmfsXipFileWrite ⟨4, 1, fun _ => 7, 1, none, .ok, fun _ => false⟩
      ⟨0, .data 1, 4096, 1, false, 0⟩ ⟨fun _ => .ok 2, fun _ => .ok 2, [], fun _ _ => 0⟩ = some r ∧
    pmfsWriteTransaction ⟨4, 1, fun _ => 7, 1, none, .ok, fun _ => false⟩
      ⟨0, .data 1, 4096, 1, false, 0⟩ ⟨fun _ => .ok 2, fun _ => .ok 2, [], fun _ _ => 0⟩ = some r' ∧
    Agrees r r' :=
  (pmfsFileWriteFast_agrees_iff (b := 1) Nat.one_pos rfl rfl).mpr (.inl ⟨rfl, rfl⟩)

/-- A file of one block, whose set-user-ID bit is to be removed. -/
theorem not_agrees_setuid : ¬ ∀ (w : Write) (f : File) (s : Env) (b : ℕ), 0 < w.count →
    w.sameBlock = true → pmfsFindDataBlock f w.startBlk = some b →
    ∃ r r', pmfsXipFileWrite w f s = some r ∧ pmfsWriteTransaction w f s = some r' ∧
      Agrees r r' := by
  intro h
  obtain ⟨r, r', hr, hr', hagrees⟩ :=
    h ⟨4, 1, fun _ => 7, 1, none, fun mode => .ok (mode % 2048), fun _ => false⟩
      ⟨0, .data 1, 4096, 1, false, 2541⟩ ⟨fun _ => .ok 2, fun _ => .ok 2, [], fun _ _ => 0⟩ 1
      Nat.one_pos rfl rfl
  cases hr
  cases hr'
  exact absurd hagrees.iMode (by decide)

end Wpmfs.File
