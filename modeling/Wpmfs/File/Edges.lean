import Wpmfs.File.Fast

/-!
# The edges of a write

A write in a transaction clears what it will not write of its first and its last block, where they
are new. The lookup of these blocks relies on a tree that has grown: where it has not, a file
without pages of pointers has its only block cleared, and for any other file the lookup leaves the
root page.
-/

namespace Wpmfs.File

variable {f f' : File} {s s' : Env} {w : Write} {k n b x blocknr num block low high : ℕ}
  {mem mem' : ℕ → ℕ → UInt8} {zero new : Bool} {err : Option Error}

/-! ## How far the tree grows -/

/-- How many of the first requests for a page are granted before one is not. -/
def granted : (n : ℕ) → (ℕ → Except Error ℕ) → ℕ
  | 0, _ => 0
  | n + 1, node =>
    match node 0 with
    | .ok _ => granted n (fun i => node (i + 1)) + 1
    | .error _ => 0

/-- The height that a tree gets to before the blocks up to `last` are allocated. -/
def grownHeight (f : File) (last : ℕ) (s : Env) : ℕ :=
  let height := heightFor f.height last
  if 3 < height then f.height else f.height + granted (height - f.height) s.node

theorem pmfsIncreaseBtreeHeight_height {h : ℕ} (root : Slot h) (s : Heap) :
    (pmfsIncreaseBtreeHeight n h root s).2.1.1 = h + granted n s.node := by
  induction n generalizing h s with
  | zero => rfl
  | succ n ih =>
    rw [pmfsIncreaseBtreeHeight, granted, Heap.pmfsNewBlock]
    cases s.node 0 with
    | error e => rfl
    | ok b =>
      dsimp only
      rw [ih]
      exact Nat.add_right_comm h 1 _

theorem allocRoot_height {h : ℕ} (zero : Bool) (root : Slot h) (s : Heap) (hh : h = 0) :
    (allocRoot zero h root s).2.1.1 = 0 := by
  rw [allocRoot]
  split
  · split
    · rfl
    · exact hh
  · exact hh

/-- An allocation that does not get to the height for its range adds no block. -/
theorem pmfsAllocBlocks_grown (hf : f.WellFormed)
    (halloc : pmfsAllocBlocks f blocknr num zero s = some (err, f', s')) :
    f'.height = grownHeight f (blocknr + num - 1) s ∧
      (512 ^ f'.height ≤ blocknr + num - 1 → ∀ k, pmfsFindDataBlock f' k = pmfsFindDataBlock f k) := by
  have hfor := heightFor_le_iff.mp (le_refl (heightFor f.height (blocknr + num - 1)))
  have hheight := hf.height_le
  rw [grownHeight]
  rw [pmfsAllocBlocks] at halloc
  split at halloc
  · rename_i hbig
    cases halloc
    exact ⟨(if_pos hbig.2).symm, fun _ _ => rfl⟩
  · rename_i hbig
    have hle : ¬ 3 < heightFor f.height (blocknr + num - 1) := by
      rw [heightFor] at hbig ⊢
      split
      · rename_i h
        rwa [if_pos h, and_iff_right h] at hbig
      · omega
    rw [if_neg hle]
    split at halloc
    · rename_i hzero
      have hroot : f.height = 0 := by omega
      have ht := allocRoot_height zero f.root (f.heap s) hroot
      revert halloc ht
      generalize allocRoot zero f.height f.root (f.heap s) = r
      intro halloc ht
      cases halloc
      rw [hzero] at hfor ⊢
      rw [hroot, granted]
      exact ⟨ht, fun hlast => absurd hfor.2 (Nat.not_lt.mpr (ht ▸ hlast))⟩
    · rename_i hpos
      have hraised := pmfsIncreaseBtreeHeight_raised zero f.root (f.heap s)
        (n := heightFor f.height (blocknr + num - 1) - f.height)
      have hgrown := pmfsIncreaseBtreeHeight_height
        (n := heightFor f.height (blocknr + num - 1) - f.height) f.root (f.heap s)
      revert halloc hraised hgrown
      cases hr : pmfsIncreaseBtreeHeight
        (heightFor f.height (blocknr + num - 1) - f.height) f.height f.root (f.heap s) with
      | mk errval rest =>
        obtain ⟨⟨m, t⟩, s₁⟩ := rest
        intro halloc hraised hgrown
        cases errval with
        | some e =>
          cases halloc
          refine ⟨hgrown, fun _ k => ?_⟩
          rw [pmfsFindDataBlock_eq, pmfsFindDataBlock_eq]
          cases hk : f.ptr 0 k with
          | some b => exact hraised.kept 0 k b hk
          | none =>
            by_contra hne
            exact absurd (hraised.above 0 k hk hne).1 (Nat.not_lt_zero _)
        | none =>
          have hm := hraised.height_eq rfl
          dsimp only at hm hgrown halloc
          cases t with
          | null =>
            rw [allocTree] at halloc
            · cases halloc
            · rintro _ _ _ rfl h
              cases h
          | data b => exact (hpos (by omega)).elim
          | page b node =>
            rw [allocTree] at halloc
            cases halloc
            have hlt := hfor.2
            rw [← Nat.add_sub_cancel' hfor.1, ← hm] at hlt
            exact ⟨hgrown, fun hlast => absurd hlt (Nat.not_lt.mpr hlast)⟩

/-! ## The lookup of an edge -/

/-- The block that is found for `block`: any, in a tree without pages of pointers. -/
def edgeBlk (f : File) (block : ℕ) : ℕ := if f.height = 0 then 0 else block

/-- The lookup follows a pointer behind the root page. -/
def Stray (behind : ℕ → Bool) (f : File) (block : ℕ) : Prop :=
  f.height ≠ 0 ∧ 512 ^ f.height ≤ block ∧ behind (block / 512 ^ (f.height - 1)) = true

theorem edgeBlk_of_lt (hblock : block < 512 ^ f.height) : edgeBlk f block = block := by
  rw [edgeBlk]
  split
  · rename_i hzero
    rw [hzero] at hblock
    omega
  · rfl

theorem not_stray_of_lt {behind : ℕ → Bool} (hblock : block < 512 ^ f.height) :
    ¬ Stray behind f block := fun h => Nat.not_lt.mpr h.2.1 hblock

theorem findDataBlock_of_not_stray {behind : ℕ → Bool} (hf : f.WellFormed)
    (hstray : ¬ Stray behind f block) :
    findDataBlock behind f block = some (pmfsFindDataBlock f (edgeBlk f block)) := by
  have hnull : f.root.isNull = true → ∀ k, f.root.find k = none := fun hnull k => by
    rw [Slot.isNull_iff.mp hnull, Slot.find_eq, Slot.ptr_null]
  rw [findDataBlock, edgeBlk, pmfsFindDataBlock]
  by_cases hzero : f.height = 0
  · rw [if_pos (.inl hzero), if_pos hzero, if_neg (by rw [hzero]; decide)]
    congr 1
    obtain ⟨height, root, _⟩ := f
    dsimp only at hzero
    subst hzero
    cases root <;> rfl
  · rw [if_neg hzero]
    by_cases hlt : block < 512 ^ f.height
    · rw [if_pos (.inr (.inr hlt)), if_neg (Nat.not_le.mpr hlt)]
    · rw [if_neg (by
        rintro (h | h | h)
        · exact hzero h
        · exact hzero (hf.null h)
        · exact hlt h), if_pos (Nat.not_lt.mp hlt), if_neg]
      exact fun hbehind => hstray ⟨hzero, Nat.not_lt.mp hlt, hbehind⟩

theorem findDataBlock_of_stray {behind : ℕ → Bool} (hf : f.WellFormed)
    (hstray : Stray behind f block) : findDataBlock behind f block = none := by
  obtain ⟨hzero, hle, hbehind⟩ := hstray
  rw [findDataBlock, if_neg (by
    rintro (h | h | h)
    · exact hzero h
    · exact hzero (hf.null h)
    · exact Nat.not_lt.mpr hle h), if_pos hbehind]

/-- What is cleared of an edge. -/
def Cleared (f : File) (new : Bool) (block low high x : ℕ) : Prop :=
  new = true ∧ x / 4096 = edgeBlk f block ∧ low ≤ x % 4096 ∧ x % 4096 < high

instance : Decidable (Cleared f new block low high x) := by
  unfold Cleared
  infer_instance

theorem clearEdgeBlk_cleared {behind : ℕ → Bool} (low high : ℕ) (mem : ℕ → ℕ → UInt8)
    (hf : f.WellFormed)
    (hstray : new = true → ¬ Stray behind f block) :
    ∃ mem', clearEdgeBlk behind f new block low high mem = some mem' ∧
      ∀ x, contents f mem' x = if Cleared f new block low high x then 0 else contents f mem x := by
  rw [clearEdgeBlk]
  cases new with
  | false => exact ⟨mem, rfl, fun x => (if_neg fun h => Bool.false_ne_true h.1).symm⟩
  | true =>
    rw [if_pos rfl, findDataBlock_of_not_stray hf (hstray rfl), Option.map_some]
    refine ⟨_, rfl, fun x => ?_⟩
    cases hb : pmfsFindDataBlock f (edgeBlk f block) with
    | some b =>
      dsimp only
      rw [contents_memsetNt hf hb]
      simp [Cleared]
    | none =>
      dsimp only
      split
      · rename_i hx
        rw [contents_of_none (by rwa [hx.2.1])]
      · rfl

theorem clearEdgeBlk_of_stray {behind : ℕ → Bool} (hf : f.WellFormed)
    (hstray : new = true ∧ Stray behind f block) :
    clearEdgeBlk behind f new block low high mem = none := by
  rw [clearEdgeBlk, if_pos hstray.1, findDataBlock_of_stray hf hstray.2, Option.map_none]

/-! ## The rest of the file -/

/-- An allocation neither reads the mode of the file nor changes it. -/
theorem pmfsAllocBlocks_iMode (mode : ℕ) :
    pmfsAllocBlocks { f with iMode := mode } blocknr num zero s =
      (pmfsAllocBlocks f blocknr num zero s).map fun (err, f', s') =>
        (err, { f' with iMode := mode }, s') := by
  rw [pmfsAllocBlocks, pmfsAllocBlocks]
  split
  · rfl
  · rw [Option.map_map]
    rfl

namespace Write

variable (w : Write)

theorem endBlk_eq (hcount : 0 < w.count) : w.endBlk = (w.pos + w.count - 1) / 4096 := by
  rw [endBlk, numBlocks, startBlk]
  omega

/-- The write starts inside of a block that is new. -/
def newSblk (f : File) : Bool :=
  decide (w.pos % 4096 ≠ 0) && (pmfsFindDataBlock f w.startBlk).isNone

/-- The write ends inside of a block that is new. -/
def newEblk (f : File) : Bool :=
  decide (w.eblkOffset ≠ 0) && (pmfsFindDataBlock f w.endBlk).isNone

/-- Where the clearing of the start ends, in its block. -/
def sblkHigh : ℕ := w.pos % 4096 + (8 - w.pos % 4096 % 8)

/-- Where the clearing of the end starts, in its block. -/
def eblkLow : ℕ := w.eblkOffset - w.eblkOffset % 8

/-- A byte of an edge, where `f'` is the file after the allocation. -/
def Clears (f f' : File) (x : ℕ) : Prop :=
  Cleared f' (w.newSblk f) w.startBlk 0 w.sblkHigh x ∨
    Cleared f' (w.newEblk f) w.endBlk w.eblkLow 4096 x

instance (f f' : File) (x : ℕ) : Decidable (w.Clears f f' x) := by
  unfold Clears
  infer_instance

/-- A lookup of an edge goes astray. -/
def Strays (f f' : File) : Prop :=
  w.newSblk f = true ∧ Stray w.behind f' w.startBlk ∨ w.newEblk f = true ∧ Stray w.behind f' w.endBlk

end Write

/-- How much is written; nothing, if the call fails. -/
def Written.written (r : Written) : ℕ :=
  match r.ret with
  | .ok n => n
  | .error _ => 0

/-- What a write in a transaction leaves, where `f'` is the file after the allocation. -/
structure Ran (w : Write) (f f' : File) (s : Env) (r : Written) : Prop where
  le : r.written ≤ min w.count w.readable
  contents : ∀ x, contents r.file r.env.mem x =
    if w.pos ≤ x ∧ x < w.pos + r.written then w.buf (x - w.pos)
    else if w.Clears f f' x then 0 else contents f' s.mem x
  reach : ∀ m, (∀ k, w.startBlk ≤ k → k < m → pmfsFindDataBlock f' k ≠ none) →
    min (min w.count w.readable) (4096 * m - w.pos) ≤ r.written

theorem xipFileWrite_ran (hs : Sound f' s) (hcount : 0 < w.count) :
    ∃ r, xipFileWrite w f' s = some r ∧ r.written ≤ min w.count w.readable ∧
      (∀ x, contents r.file r.env.mem x =
        if w.pos ≤ x ∧ x < w.pos + r.written then w.buf (x - w.pos) else contents f' s.mem x) ∧
      ∀ m, (∀ k, w.startBlk ≤ k → k < m → pmfsFindDataBlock f' k ≠ none) →
        min (min w.count w.readable) (4096 * m - w.pos) ≤ r.written := by
  obtain ⟨status, written, f₂, s₂, hrun, hloop⟩ := xipWriteLoop_looped (w := w) (n := w.numBlocks)
    hs hcount (by rw [Write.numBlocks]; omega)
  rw [xipFileWrite, hrun, Option.map_some]
  refine ⟨_, rfl, ?_⟩
  have hwritten : Written.written
      { ret := if written = 0 then status.elim (.ok 0) .error else .ok written
        ppos := w.pos + written
        file := updateIsize f₂ (w.pos + written)
        env := s₂ } = written := by
    rw [Written.written]
    dsimp only
    split <;> rename_i hret <;> split at hret
    · cases status with
      | none =>
        cases hret
        omega
      | some e => cases hret
    · exact (Except.ok.inj hret).symm
    · omega
    · cases hret
  rw [hwritten]
  refine ⟨by have := hloop.le; omega, fun x => ?_, hloop.reach⟩
  rw [contents_updateIsize]
  exact hloop.contents x

theorem pmfsWriteTransaction_ran {mode : ℕ} (hs : Sound f s) (hcount : 0 < w.count)
    (htrans : w.newTransaction = none) (hprivs : w.fileRemovePrivs f.iMode = .ok mode) :
    ∃ err f' s', pmfsAllocBlocks f w.startBlk w.numBlocks false s = some (err, f', s') ∧
      Allocated f w.startBlk w.endBlk false s err f' s' ∧
      (w.Strays f f' → pmfsWriteTransaction w f s = none) ∧
      (¬ w.Strays f f' → ∃ r, pmfsWriteTransaction w f s = some r ∧ Ran w f f' s r) := by
  obtain ⟨err, f', s', halloc, hall⟩ := pmfsAllocBlocks_allocated false hs
    (show 0 < w.numBlocks from Nat.succ_pos _) w.startBlk
  refine ⟨err, f', s', halloc, hall, ?_⟩
  obtain ⟨hwell, hgives⟩ := hall.sound
  have hwell' : WellFormed { f' with iMode := mode } :=
    ⟨hwell.height_le, hwell.null, hwell.nodup, hwell.nonzero⟩
  have hrun : pmfsWriteTransaction w f s =
      (clearEdgeBlk w.behind { f' with iMode := mode } (w.newSblk f) w.startBlk 0 w.sblkHigh
        s.mem).bind fun mem => (clearEdgeBlk w.behind { f' with iMode := mode } (w.newEblk f) w.endBlk
          w.eblkLow 4096 mem).bind fun mem =>
            xipFileWrite w { f' with iMode := mode } { s' with mem := mem } := by
    rw [pmfsWriteTransaction, htrans]
    dsimp only
    rw [hprivs]
    dsimp only
    rw [pmfsAllocBlocks_iMode, halloc, Option.map_some, Option.bind_some, hall.raw rfl]
    rfl
  constructor
  · intro hstray
    rw [hrun]
    by_cases hsblk : w.newSblk f = true ∧ Stray w.behind f' w.startBlk
    · rw [clearEdgeBlk_of_stray hwell' hsblk, Option.bind_none]
    · obtain ⟨mem, hmem, -⟩ := clearEdgeBlk_cleared 0 w.sblkHigh s.mem hwell' fun hnew hst =>
        hsblk ⟨hnew, hst⟩
      rw [hmem, Option.bind_some, clearEdgeBlk_of_stray hwell' (hstray.resolve_left hsblk),
        Option.bind_none]
  · intro hstray
    obtain ⟨mem, hmem, hclear⟩ := clearEdgeBlk_cleared 0 w.sblkHigh s.mem hwell' fun hnew hst =>
      hstray (.inl ⟨hnew, hst⟩)
    obtain ⟨mem', hmem', hclear'⟩ := clearEdgeBlk_cleared w.eblkLow 4096 mem hwell' fun hnew hst =>
      hstray (.inr ⟨hnew, hst⟩)
    obtain ⟨r, hr, hle, hcontents, hreach⟩ := xipFileWrite_ran (w := w)
      (show Sound { f' with iMode := mode } { s' with mem := mem' } from
        ⟨hwell', hgives.inj, hgives.fresh⟩) hcount
    refine ⟨r, by rw [hrun, hmem, Option.bind_some, hmem', Option.bind_some, hr], hle, fun x => ?_,
      hreach⟩
    rw [hcontents, hclear', hclear]
    refine if_congr Iff.rfl rfl ?_
    by_cases hend : Cleared f' (w.newEblk f) w.endBlk w.eblkLow 4096 x
    · exact (if_pos hend).trans (if_pos (.inr hend)).symm
    · refine (if_neg hend).trans (if_congr ⟨.inl, fun h => h.resolve_right hend⟩ rfl rfl)

theorem newSblk_iff : w.newSblk f = true ↔
    w.pos % 4096 ≠ 0 ∧ pmfsFindDataBlock f w.startBlk = none := by
  simp [Write.newSblk]

theorem newEblk_iff : w.newEblk f = true ↔
    w.eblkOffset ≠ 0 ∧ pmfsFindDataBlock f w.endBlk = none := by
  simp [Write.newEblk]

/-- In a tree that is high enough, only blocks that are new are cleared. -/
theorem clears_iff {x : ℕ} (hcount : 0 < w.count) (hlt : w.endBlk < 512 ^ f'.height) :
    w.Clears f f' x ↔ pmfsFindDataBlock f (x / 4096) = none ∧
      (w.pos % 4096 ≠ 0 ∧ x / 4096 = w.pos / 4096 ∧ x < w.pos / 8 * 8 + 8 ∨
        x / 4096 = (w.pos + w.count) / 4096 ∧ (w.pos + w.count) / 8 * 8 ≤ x ∧
          (w.pos + w.count) % 4096 ≠ 0) := by
  have hend := w.endBlk_eq hcount
  have hle : w.startBlk ≤ w.endBlk := by rw [hend, Write.startBlk]; omega
  rw [Write.Clears, Cleared, Cleared, newSblk_iff, newEblk_iff, edgeBlk_of_lt hlt,
    edgeBlk_of_lt (hle.trans_lt hlt)]
  constructor
  · rintro (⟨⟨hpos, hnone⟩, hx, -, hhigh⟩ | ⟨⟨heblk, hnone⟩, hx, hlow, -⟩)
    · rw [Write.startBlk] at hx
      rw [Write.sblkHigh] at hhigh
      exact ⟨by rwa [hx], .inl ⟨hpos, hx, by omega⟩⟩
    · rw [Write.eblkLow, Write.eblkOffset] at hlow
      rw [Write.eblkOffset] at heblk
      refine ⟨by rwa [hx], .inr ?_⟩
      rw [hend] at hx
      omega
  · rintro ⟨hnone, ⟨hpos, hx, hhigh⟩ | ⟨hx, hlow, heblk⟩⟩
    · refine .inl ⟨⟨hpos, by rwa [Write.startBlk, ← hx]⟩, hx, Nat.zero_le _, ?_⟩
      rw [Write.sblkHigh]
      omega
    · have hx' : x / 4096 = w.endBlk := by omega
      refine .inr ⟨⟨heblk, by rwa [← hx']⟩, hx', ?_, Nat.mod_lt _ (by decide)⟩
      rw [Write.eblkLow, Write.eblkOffset]
      omega

/-- The bytes of blocks that are not new are kept, and so are holes, but where the block that fills
one is neither written nor cleared. -/
theorem Ran.contents_eq {r : Written} (hrun : Ran w f f' s r) (hcount : 0 < w.count)
    (hlt : w.endBlk < 512 ^ f'.height)
    (hall : Allocated f w.startBlk w.endBlk false s err f' s')
    (hx : ¬(w.pos ≤ x ∧ x < w.pos + r.written))
    (hnew : pmfsFindDataBlock f (x / 4096) = none → pmfsFindDataBlock f' (x / 4096) ≠ none →
      w.Clears f f' x) :
    File.contents r.file r.env.mem x = File.contents f s.mem x := by
  rw [hrun.contents, if_neg hx]
  cases hk : pmfsFindDataBlock f (x / 4096) with
  | some b =>
    rw [if_neg (by rw [clears_iff hcount hlt, hk]; simp), contents_of_some hk,
      contents_of_some (hall.kept _ _ hk)]
  | none =>
    rw [contents_of_none hk]
    split
    · rfl
    · rename_i hclear
      by_contra hne
      exact hclear (hnew hk fun h => hne (contents_of_none h))

/-- A call that returns has left each byte with `P` as it was, but for those that it has written. -/
def Keeps (w : Write) (f : File) (s : Env) (P : ℕ → Prop) (call : Option Written) : Prop :=
  ∃ r, call = some r ∧ ∀ x, P x → ¬(w.pos ≤ x ∧ x < w.pos + r.written) →
    contents r.file r.env.mem x = contents f s.mem x

theorem written_pmfsFileWriteFast (w : Write) (b : ℕ) (f : File) (s : Env) :
    (pmfsFileWriteFast w b f s).written = w.copied 0 w.count := by
  rw [Written.written, pmfsFileWriteFast]
  dsimp only
  split <;> rename_i hret <;> split at hret
  · cases hret
  · exact (Except.ok.inj hret).symm
  · rename_i h
    exact h.2.symm
  · cases hret

/-- The fast path changes only what it copies. -/
theorem pmfsFileWriteFast_keeps {P : ℕ → Prop} (hs : Sound f s) (hsame : w.sameBlock = true)
    (hb : pmfsFindDataBlock f w.startBlk = some b) :
    Keeps w f s P (some (pmfsFileWriteFast w b f s)) := by
  refine ⟨_, rfl, fun x _ hx => ?_⟩
  have hzero : (w.count + w.pos % 4096 - 1) / 4096 = 0 := by simpa [Write.sameBlock] using hsame
  have hle : w.copied 0 w.count ≤ w.count := Nat.min_le_left ..
  rw [written_pmfsFileWriteFast] at hx
  rw [pmfsFileWriteFast]
  dsimp only
  rw [contents_updateIsize, contents_memcpyToNvmm hs.1 hb (by omega), if_neg hx]

/-- A call for which no transaction goes through changes nothing but on the fast path. -/
theorem pmfsXipFileWrite_keeps_of_fails {P : ℕ → Prop} {e : Error} (hs : Sound f s)
    (hcount : 0 < w.count) (hfails : Fails w f e) : Keeps w f s P (pmfsXipFileWrite w f s) := by
  have htrans : Keeps w f s P (pmfsWriteTransaction w f s) := by
    refine ⟨⟨.error e, w.pos, f, s⟩, ?_, fun _ _ _ => rfl⟩
    rw [pmfsWriteTransaction]
    rcases hfails with hfails | ⟨hfails, hprivs⟩
    · rw [hfails]
    · rw [hfails]
      dsimp only
      rw [hprivs]
  rw [pmfsXipFileWrite, if_neg hcount.ne']
  split
  · rename_i b hb
    split
    · rename_i hsame
      exact pmfsFileWriteFast_keeps hs hsame hb
    · exact htrans
  · exact htrans

/-- Where it goes through, the fast path keeps what the transaction would keep. -/
theorem pmfsXipFileWrite_keeps {P : ℕ → Prop} {mode : ℕ} (hcount : 0 < w.count)
    (htrans : w.newTransaction = none) (hprivs : w.fileRemovePrivs f.iMode = .ok mode) :
    Keeps w f s P (pmfsXipFileWrite w f s) ↔ Keeps w f s P (pmfsWriteTransaction w f s) := by
  rw [pmfsXipFileWrite, if_neg hcount.ne']
  split
  · rename_i b hb
    split
    · rename_i hsame
      rw [pmfsWriteTransaction_present hcount hsame hb htrans hprivs, Keeps, Keeps]
      simp only [Option.some.injEq, exists_eq_left']
      rw [written_pmfsFileWriteFast, written_pmfsFileWriteFast, pmfsFileWriteFast,
        pmfsFileWriteFast]
      dsimp only
      rw [contents_updateIsize, contents_updateIsize]
      rfl
    · rfl
  · rfl

theorem goes_through (hfails : ¬ ∃ e, Fails w f e) :
    w.newTransaction = none ∧ ∃ mode, w.fileRemovePrivs f.iMode = .ok mode := by
  cases htrans : w.newTransaction with
  | some e => exact absurd ⟨e, .inl htrans⟩ hfails
  | none =>
    cases hprivs : w.fileRemovePrivs f.iMode with
    | error e => exact absurd ⟨e, .inr ⟨htrans, hprivs⟩⟩ hfails
    | ok mode => exact ⟨rfl, mode, rfl⟩

end Wpmfs.File
