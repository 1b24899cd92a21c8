import Wpmfs.File.Edges
import Wpmfs.File.Remains

/-!
# What allocations add over a call

A call allocates once, or block after block. Either way it adds pointers of its range, and of the
levels that the tree grows by, and what it allocates is counted.
-/

namespace Wpmfs.File

open Spans

variable {f f' f'' : File} {s s' s'' : Env} {w : Write} {k l n num blocknr first last done written : ℕ}
  {zero : Bool} {err : Option Error}

/-- A file after some allocations for blocks of a range. A page that starts behind the first block
of the file has a block in it or after it, unless the flag is set; at least where no page is
refused, and where there is one page of the second level. -/
structure Extended (f : File) (s : Env) (first last : ℕ) (f' : File) (s' : Env) : Prop where
  sound : Sound f' s'
  kept : ∀ l k b, f.ptr l k = some b → f'.ptr l k = some b
  height_le : f.height ≤ f'.height
  meets : ∀ l k, f.ptr l k = none → f'.ptr l k ≠ none →
    f.height < l ∧ k < 512 ^ l ∨ Meets 512 first last l k
  count : f.iBlocks = numData f.root.entries → f'.iBlocks = numData f'.root.entries
  flag : f.eofblocks = true → f'.eofblocks = true
  nodes : s.HasNodes → s'.HasNodes
  fed : s.HasNodes ∨ last < 512 ^ 2 → f'.eofblocks = true ∨ ∀ l k, f.ptr l k = none →
    f'.ptr l k ≠ none → pageStart l k = 0 ∨ ∃ j, f'.ptr 0 j ≠ none ∧ pageStart l k ≤ j

namespace Extended

theorem refl (hs : Sound f s) : Extended f s first last f s :=
  ⟨hs, fun _ _ _ h => h, le_rfl, fun _ _ h h' => absurd h h', id, id, id,
    fun _ => .inr fun _ _ h h' => absurd h h'⟩

theorem found (h : Extended f s first last f' s') (hptr : f.ptr l k ≠ none) : f'.ptr l k ≠ none := by
  obtain ⟨b, hb⟩ := Option.ne_none_iff_exists'.mp hptr
  rw [h.kept l k b hb]
  exact Option.some_ne_none b

theorem trans (h : Extended f s first last f' s') (h' : Extended f' s' first last f'' s'') :
    Extended f s first last f'' s'' := by
  refine ⟨h'.sound, fun l k b hb => h'.kept l k b (h.kept l k b hb),
    h.height_le.trans h'.height_le, fun l k hnone hptr => ?_, fun hc => h'.count (h.count hc),
    fun hf => h'.flag (h.flag hf), fun hs => h'.nodes (h.nodes hs), fun hc => ?_⟩
  · by_cases hold : f'.ptr l k = none
    · exact (h'.meets l k hold hptr).imp_left fun hl => ⟨h.height_le.trans_lt hl.1, hl.2⟩
    · exact h.meets l k hnone hold
  · rcases h'.fed (hc.imp_left h.nodes) with hflag | hfed'
    · exact .inl hflag
    rcases h.fed hc with hflag | hfed
    · exact .inl (h'.flag hflag)
    refine .inr fun l k hnone hptr => ?_
    by_cases hold : f'.ptr l k = none
    · exact hfed' l k hold hptr
    · exact (hfed l k hnone hold).imp_right fun ⟨j, hj, hle⟩ => ⟨j, h'.found hj, hle⟩

theorem mono {a b : ℕ} (h : Extended f s a b f' s') (ha : first ≤ a) (hb : b ≤ last) :
    Extended f s first last f' s' :=
  ⟨h.sound, h.kept, h.height_le, fun l k hnone hptr => (h.meets l k hnone hptr).imp_right fun hm =>
      ⟨(Nat.div_le_div_right ha).trans hm.1, hm.2.trans (Nat.div_le_div_right hb)⟩,
    h.count, h.flag, h.nodes, fun hc => h.fed (hc.imp_right (lt_of_le_of_lt hb))⟩

theorem withMem (h : Extended f s first last f' s') (mem : ℕ → ℕ → UInt8) :
    Extended f s first last f' { s' with mem := mem } :=
  ⟨h.sound.withMem mem, h.kept, h.height_le, h.meets, h.count, h.flag, h.nodes, h.fed⟩

theorem ofMem {mem : ℕ → ℕ → UInt8} (h : Extended f { s with mem := mem } first last f' s') :
    Extended f s first last f' s' :=
  ⟨h.sound, h.kept, h.height_le, h.meets, h.count, h.flag, h.nodes, h.fed⟩

/-- The size and the mode do not matter. -/
theorem congr {g g' : File} (h : Extended f s first last f' s')
    (hg : ⟨g.height, g.root, 0, g.iBlocks, g.eofblocks, 0⟩ =
      (⟨f.height, f.root, 0, f.iBlocks, f.eofblocks, 0⟩ : File))
    (hg' : ⟨g'.height, g'.root, 0, g'.iBlocks, g'.eofblocks, 0⟩ =
      (⟨f'.height, f'.root, 0, f'.iBlocks, f'.eofblocks, 0⟩ : File)) :
    Extended g s first last g' s' := by
  obtain ⟨height, root, iSize, iBlocks, eofblocks, iMode⟩ := g
  obtain ⟨height', root', iSize', iBlocks', eofblocks', iMode'⟩ := g'
  cases hg
  cases hg'
  exact ⟨⟨⟨h.sound.1.height_le, h.sound.1.null, h.sound.1.nodup, h.sound.1.nonzero⟩, h.sound.2⟩,
    h.kept, h.height_le, h.meets, h.count, h.flag, h.nodes, h.fed⟩

/-- With the flag, nothing is said of the pages. -/
theorem setFlag {n : ℕ} (h : Extended f s first last f' s') :
    Extended f s first last { f' with eofblocks := true, iSize := n } s' :=
  ⟨⟨⟨h.sound.1.height_le, h.sound.1.null, h.sound.1.nodup, h.sound.1.nonzero⟩, h.sound.2⟩,
    h.kept, h.height_le, h.meets, h.count, fun _ => rfl, h.nodes, fun _ => .inl rfl⟩

end Extended

/-- The blocks past the first refusal are not there, and neither is any without a page. -/
theorem Added.fed_pages {r : Option Error × ((h : ℕ) × Slot h) × Heap} {t : (h : ℕ) × Slot h}
    {s : Heap} (hr : Added t first last zero s r) (hle : first ≤ last)
    (hc : s.HasNodes ∨ last < 512 ^ 2) :
    r.2.2.eofblocks = true ∨ ∀ l k, treePtr t l k = none → treePtr r.2.1 l k ≠ none →
      pageStart l k = 0 ∨ ∃ j, treePtr r.2.1 0 j ≠ none ∧ pageStart l k ≤ j := by
  by_cases herr : r.1 = none
  · refine .inr fun l k hnone hptr => ?_
    rcases hr.meets l k hnone hptr with ⟨-, hk⟩ | hmeets
    · exact .inl (pageStart_eq_zero hk)
    · exact .inr ⟨last, hr.found herr last ⟨hle, le_rfl⟩, pageStart_mono hmeets.2⟩
  · rcases hc with hnodes | hlast
    · refine (hr.flagged herr hnodes).imp_right fun hsame l k hnone hptr => ?_
      rw [hsame.1] at hptr
      exact absurd hnone hptr
    · refine hr.fed.imp_right fun hfed l k hnone hptr => ?_
      rcases hr.meets l k hnone hptr with ⟨-, hk⟩ | hmeets
      · exact .inl (pageStart_eq_zero hk)
      · by_cases hl : 2 ≤ l
        · refine .inl (pageStart_eq_zero ?_)
          have hdiv := hmeets.2
          rw [Nat.div_eq_of_lt (hlast.trans_le (Nat.pow_le_pow_right (by decide) hl)),
            Nat.le_zero, Nat.div_eq_zero_iff] at hdiv
          exact hdiv.resolve_left (Nat.pow_pos (by decide)).ne'
        · by_cases hzero : l = 0
          · subst hzero
            exact .inr ⟨k, hptr, pageStart_le 0 k⟩
          · obtain rfl : l = 1 := by omega
            rcases hfed k hnone hptr with hk | ⟨j, -, hsame, hfound⟩
            · exact .inl (pageStart_eq_zero hk)
            · exact .inr ⟨j, hfound, pageStart_mono hsame.ge⟩

theorem pmfsAllocBlocks_extended (hs : Sound f s) (hnum : 0 < num)
    (halloc : pmfsAllocBlocks f blocknr num zero s = some (err, f', s')) :
    Extended f s blocknr (blocknr + num - 1) f' s' := by
  rcases pmfsAllocBlocks_cases blocknr zero s hs.1.null hnum with
    h | ⟨r, h, hadded, hheight⟩
  · rw [halloc] at h
    cases h
    exact .refl hs
  · rw [halloc] at h
    cases h
    have hle : r.2.1.1 ≤ 3 := by
      have := hs.1.height_le
      have := hadded.height
      dsimp only at this
      omega
    have hall := hadded.allocated hs hle
    refine ⟨hall.sound, hadded.kept, ?_, hadded.meets, fun hcount => ?_, hadded.grows.eofblocks,
      hadded.grows.hasNodes, hadded.fed_pages (by omega)⟩
    · -- The old root is still there.
      by_cases hnull : f.root = .null
      · rw [hs.1.null (Slot.isNull_iff.mpr hnull)]
        exact Nat.zero_le _
      · have hpos : 0 < 512 ^ f.height := Nat.pow_pos (by decide)
        obtain ⟨b, hb⟩ := Option.ne_none_iff_exists'.mp (Slot.ptr_root (k := 0) hnull)
        have hkept := hadded.kept f.height 0 b ((treePtr_of_lt hpos).trans hb)
        have hlt := lt_of_treePtr (ne_of_eq_of_ne hkept (Option.some_ne_none b))
        rw [treePtr_of_lt hlt] at hkept
        exact Slot.le_of_ptr (ne_of_eq_of_ne hkept (Option.some_ne_none b))
    · have hnum := hadded.numData_eq
      change r.2.2.iBlocks = numData r.2.1.2.entries
      change r.2.2.iBlocks + numData f.root.entries = f.iBlocks + numData r.2.1.2.entries at hnum
      omega

/-! ## Writes -/

/-- Where there is no block for the page, no block has been added. -/
theorem pmfsGetXipMem_extended {r : Except Error ℕ} (hs : Sound f s)
    (hrun : pmfsGetXipMem true f k s = some (r, f', s')) :
    Extended f s k k f' s' ∧ ∀ e, r = .error e → ∀ j, f.ptr 0 j = none → f'.ptr 0 j = none := by
  rw [pmfsGetXipMem] at hrun
  split at hrun
  · cases hrun
    exact ⟨.refl hs, by simp⟩
  · rename_i hk
    rw [if_pos rfl] at hrun
    obtain ⟨⟨err, f₁, s₁⟩, halloc, hrun⟩ := Option.map_eq_some_iff.mp hrun
    have hext : Extended f s k k f₁ s₁ := pmfsAllocBlocks_extended hs Nat.one_pos halloc
    obtain ⟨err', f₂, s₂, halloc', hall⟩ :=
      pmfsAllocBlocks_allocated true hs Nat.one_pos k
    rw [halloc] at halloc'
    cases halloc'
    cases err with
    | some e =>
      cases hrun
      refine ⟨hext, fun _ _ j hnone => ?_⟩
      obtain ⟨m, hm⟩ := hall.stopped (Option.some_ne_none e)
      by_contra hptr
      have hle := hm.le
      have hlt := hm.lt j ((pmfsFindDataBlock_eq f j).trans hnone)
        (by rwa [pmfsFindDataBlock_eq])
      have hfirst := (hall.within j ((pmfsFindDataBlock_eq f j).trans hnone)
        (by rwa [pmfsFindDataBlock_eq])).1
      omega
    | none =>
      obtain ⟨b, hb⟩ := Option.ne_none_iff_exists'.mp (hall.found rfl k le_rfl (by omega))
      dsimp only at hrun
      rw [hb] at hrun
      cases hrun
      exact ⟨hext, by simp⟩

/-- What the loop of a write leaves in the tree, from `done` bytes on: a block that is new is
written, but for one that starts where the bytes of the user end. -/
structure Carried (w : Write) (f : File) (s : Env) (done written : ℕ) (f' : File) (s' : Env) :
    Prop where
  extended : Extended f s ((w.pos + done) / 4096) w.endBlk f' s'
  data : ∀ k, f.ptr 0 k = none → f'.ptr 0 k ≠ none →
    k * 4096 < w.pos + written ∨ k * 4096 = w.pos + w.readable ∧ w.readable < w.count
  found : done < written → ∀ k, (w.pos + done) / 4096 ≤ k → k * 4096 < w.pos + written →
    f'.ptr 0 k ≠ none

theorem xipWriteLoop_carried {status : Option Error} (hs : Sound f s) (hdone : done < w.count)
    (hread : done ≤ w.readable) (hrun : xipWriteLoop w n done f s = some (status, written, f', s')) :
    Carried w f s done written f' s' ∧ done ≤ written := by
  induction n generalizing f s done with
  | zero =>
    cases hrun
    exact ⟨⟨.refl hs, fun _ h h' => absurd h h', fun h => absurd h (Nat.lt_irrefl _)⟩, le_rfl⟩
  | succ n ih =>
    have hend := w.endBlk_eq (by omega)
    obtain ⟨r, f₁, s₁, hget, hgot⟩ := pmfsGetXipMem_got hs ((w.pos + done) / 4096)
    obtain ⟨hext, hnone⟩ := pmfsGetXipMem_extended hs hget
    have hfirst := hext.mono le_rfl (show (w.pos + done) / 4096 ≤ w.endBlk by omega)
    rw [xipWriteLoop] at hrun
    dsimp only at hrun
    rw [hget, Option.bind_some] at hrun
    cases r with
    | error e =>
      cases hrun
      exact ⟨⟨hfirst, fun j h h' => absurd (hnone e rfl j h) h', fun h => absurd h (Nat.lt_irrefl _)⟩,
        le_rfl⟩
    | ok b =>
      dsimp only at hrun
      revert hrun
      generalize hbytes : min (4096 - (w.pos + done) % 4096) (w.count - done) = bytes
      generalize hcopied : w.copied done bytes = copied
      generalize hmem : memcpyToNvmm s₁.mem b ((w.pos + done) % 4096) copied
        (fun i => w.buf (done + i)) = mem
      intro hrun
      rw [Write.copied] at hcopied
      have hhere : f₁.ptr 0 ((w.pos + done) / 4096) ≠ none := by
        rw [← pmfsFindDataBlock_eq, hgot.found b rfl]
        exact Option.some_ne_none b
      have hnew : ∀ k, f.ptr 0 k = none → f₁.ptr 0 k ≠ none → k = (w.pos + done) / 4096 := by
        intro k hk hptr
        rcases hext.meets 0 k hk hptr with ⟨h0, -⟩ | hmeets
        · exact absurd h0 (Nat.not_lt_zero _)
        · obtain ⟨h1, h2⟩ := meets_zero.mp hmeets
          omega
      have hlast : ∀ written, written = done + copied → Carried w f s done written f₁
          { s₁ with mem := mem } := by
        intro written hwritten
        refine ⟨hfirst.withMem mem, fun k hk hptr => ?_, fun hlt k hle hk => ?_⟩
        · have hk := hnew k hk hptr
          omega
        · have hk : k = (w.pos + done) / 4096 := by omega
          rwa [hk]
      split at hrun
      · cases hrun
        exact ⟨hlast _ rfl, Nat.le_add_right ..⟩
      · split at hrun
        · obtain ⟨hcarried, hle⟩ := ih (hgot.sound.withMem mem) (by omega) (by omega) hrun
          refine ⟨⟨hfirst.trans (hcarried.extended.ofMem.mono ?_ le_rfl), fun k hk hptr => ?_,
            fun hlt k hge hk => ?_⟩, by omega⟩
          · exact Nat.div_le_div_right (by omega)
          · by_cases hold : f₁.ptr 0 k = none
            · exact hcarried.data k hold hptr
            · have hk := hnew k hk hold
              omega
          · by_cases hkey : k = (w.pos + done) / 4096
            · rw [hkey]
              exact hcarried.extended.found hhere
            · exact hcarried.found (by omega) k (by omega) hk
        · cases hrun
          exact ⟨hlast _ rfl, Nat.le_add_right ..⟩

/-- The blocks of the range that an allocation leaves start before the end of the file, or are
written; unless the flag is set. -/
def Fits (w : Write) (f : File) (s : Env) : Prop :=
  ∀ err f₁ s₁, pmfsAllocBlocks f w.startBlk w.numBlocks false s = some (err, f₁, s₁) →
    f₁.eofblocks = true ∨
      (∀ k, w.startBlk ≤ k → k ≤ w.endBlk → pmfsFindDataBlock f₁ k ≠ none →
        k * 4096 < max f.iSize (w.pos + w.readable)) ∧
      (w.readable < w.count → (w.pos + w.readable) % 4096 = 0 →
        pmfsFindDataBlock f₁ ((w.pos + w.readable) / 4096) = none → w.pos + w.readable < f.iSize)

/-- What a call to write leaves of the tree, and the size. -/
structure Wrote (w : Write) (f : File) (s : Env) (r : Written) : Prop where
  extended : Extended f s w.startBlk w.endBlk r.file r.env
  iSize_le : f.iSize ≤ r.file.iSize
  size : ∀ n, r.ret = .ok n → w.pos + n ≤ r.file.iSize
  data : (Fits w f s ∨ ∃ e, Fails w f e) → r.file.eofblocks = true ∨
    ∀ k, f.ptr 0 k = none → r.file.ptr 0 k ≠ none → k * 4096 < r.file.iSize
  same : (∃ e, Fails w f e) → ∀ l k, r.file.ptr l k = f.ptr l k
  found : r.ret = .ok w.count → ∀ k, w.startBlk ≤ k → k ≤ w.endBlk → r.file.ptr 0 k ≠ none

theorem updateIsize_eq (f : File) (n : ℕ) : updateIsize f n = { f with iSize := max f.iSize n } := by
  rw [updateIsize]
  split
  · rw [Nat.max_eq_right (by omega)]
  · rw [Nat.max_eq_left (by omega)]

theorem pmfsFileWriteFast_wrote (hs : Sound f s) (hsame : w.sameBlock = true) {b : ℕ}
    (hb : pmfsFindDataBlock f w.startBlk = some b) : Wrote w f s (pmfsFileWriteFast w b f s) := by
  rw [pmfsFileWriteFast, updateIsize_eq]
  refine ⟨((Extended.refl hs).withMem _).congr rfl rfl, le_max_left .., fun n hn => ?_,
    fun _ => .inr fun _ h h' => absurd h h', fun _ _ _ => rfl, fun _ k hk hk' => ?_⟩
  · dsimp only at hn ⊢
    split at hn
    · cases hn
    · cases hn
      exact le_max_right ..
  · obtain rfl : k = w.startBlk := by
      rw [(Write.endBlk_of_sameBlock hsame).2] at hk'
      omega
    change f.ptr 0 w.startBlk ≠ none
    rw [← pmfsFindDataBlock_eq, hb]
    exact Option.some_ne_none b

theorem pmfsWriteTransaction_wrote {r : Written} (hs : Sound f s) (hcount : 0 < w.count)
    (hrun : pmfsWriteTransaction w f s = some r) : Wrote w f s r := by
  have hfail : ∀ e, Wrote w f s ⟨.error e, w.pos, f, s⟩ := fun e =>
    ⟨.refl hs, le_rfl, by simp, fun _ => .inr fun _ h h' => absurd h h', fun _ _ _ => rfl, by simp⟩
  rw [pmfsWriteTransaction] at hrun
  split at hrun
  · cases hrun
    exact hfail _
  rename_i htrans
  split at hrun
  · cases hrun
    exact hfail _
  rename_i mode hprivs
  have hgoes : ¬ ∃ e, Fails w f e := by
    rintro ⟨e, he | ⟨-, he⟩⟩
    · rw [htrans] at he
      cases he
    · rw [hprivs] at he
      cases he
  dsimp only at hrun
  rw [pmfsAllocBlocks_iMode] at hrun
  obtain ⟨err, f₁, s₁, halloc, hall⟩ : ∃ err f₁ s₁,
      pmfsAllocBlocks f w.startBlk w.numBlocks false s = some (err, f₁, s₁) ∧
        Allocated f w.startBlk w.endBlk false s err f₁ s₁ :=
    pmfsAllocBlocks_allocated false hs (Nat.succ_pos _) w.startBlk
  have hext : Extended f s w.startBlk w.endBlk f₁ s₁ :=
    pmfsAllocBlocks_extended hs (Nat.succ_pos _) halloc
  rw [halloc, Option.map_some, Option.bind_some] at hrun
  dsimp only at hrun
  obtain ⟨mem, -, hrun⟩ := Option.bind_eq_some_iff.mp hrun
  obtain ⟨mem', -, hrun⟩ := Option.bind_eq_some_iff.mp hrun
  rw [xipFileWrite] at hrun
  obtain ⟨⟨status, written, f₂, s₂⟩, hloop, hrun⟩ := Option.map_eq_some_iff.mp hrun
  have hsound : Sound { f₁ with iMode := mode } { s₁ with mem := mem' } :=
    have h := (hext.withMem mem').sound
    ⟨⟨h.1.height_le, h.1.null, h.1.nodup, h.1.nonzero⟩, h.2.inj, h.2.fresh⟩
  obtain ⟨hcarried, -⟩ := xipWriteLoop_carried hsound hcount (Nat.zero_le _) hloop
  obtain ⟨_, _, _, _, hloop', hlooped⟩ := xipWriteLoop_looped hsound hcount
    (show w.pos + w.count ≤ ((w.pos + 0) / 4096 + w.numBlocks) * 4096 by rw [Write.numBlocks]; omega)
  rw [hloop] at hloop'
  cases hloop'
  cases hrun
  dsimp only
  rw [updateIsize_eq]
  have hend := w.endBlk_eq hcount
  have htotal : Extended f s w.startBlk w.endBlk f₂ s₂ :=
    hext.trans (hcarried.extended.ofMem.congr rfl rfl)
  have hsize : f₂.iSize = f.iSize := hlooped.iSize.trans hall.iSize
  refine ⟨htotal.congr rfl rfl, ?_, fun n hn => ?_, fun hfits => ?_, fun h => absurd h hgoes,
    fun hret k hk hk' => ?_⟩
  · exact hsize.ge.trans (le_max_left ..)
  · refine le_trans ?_ (le_max_right ..)
    dsimp only at hn
    split at hn
    · cases status with
      | none =>
        cases hn
        omega
      | some e => cases hn
    · cases hn
      exact le_rfl
  · refine (hfits.resolve_right hgoes _ _ _ halloc).imp (fun hflag => ?_)
      fun hwithin k hnone hptr => ?_
    · exact hcarried.extended.flag hflag
    · obtain ⟨hrange, hstop⟩ := hwithin
      change k * 4096 < max f₂.iSize (w.pos + written)
      rw [hsize]
      by_cases hold : f₁.ptr 0 k = none
      · rcases hcarried.data k hold hptr with hlt | ⟨heq, hshort⟩
        · omega
        · have hlt := hstop hshort (by omega) (by
            rw [← heq, Nat.mul_div_cancel _ (by decide), pmfsFindDataBlock_eq]
            exact hold)
          omega
      · have hfound : pmfsFindDataBlock f₁ k ≠ none := by rwa [pmfsFindDataBlock_eq]
        obtain ⟨hfirst, hlast⟩ := hall.within k (by rwa [pmfsFindDataBlock_eq]) hfound
        have hmax := hrange k hfirst hlast hfound
        obtain ⟨m, hkm, hreached⟩ : ∃ m, k < m ∧
            ∀ j, w.startBlk ≤ j → j < m → pmfsFindDataBlock f₁ j ≠ none := by
          cases err with
          | none => exact ⟨w.endBlk + 1, Nat.lt_succ_of_le hlast,
              fun j hj hj' => hall.found rfl j hj (Nat.le_of_lt_succ hj')⟩
          | some e =>
            obtain ⟨m, hm⟩ := hall.stopped (Option.some_ne_none e)
            exact ⟨m, hm.lt k (by rwa [pmfsFindDataBlock_eq]) hfound, hm.found⟩
        have hreach := hlooped.reach m hreached
        rw [hend] at hlast
        omega
  · have hwritten : written = w.count := by
      dsimp only at hret
      split at hret
      · cases status with
        | none =>
          have := Except.ok.inj hret
          omega
        | some e => cases hret
      · exact Except.ok.inj hret
    rw [hend] at hk'
    exact hcarried.found (by omega) k hk (by omega)

theorem pmfsXipFileWrite_wrote {r : Written} (hs : Sound f s) (hcount : 0 < w.count)
    (hrun : pmfsXipFileWrite w f s = some r) : Wrote w f s r := by
  rw [pmfsXipFileWrite, if_neg hcount.ne'] at hrun
  split at hrun
  · rename_i b hb
    split at hrun
    · rename_i hsame
      cases hrun
      exact pmfsFileWriteFast_wrote hs hsame hb
    · exact pmfsWriteTransaction_wrote hs hcount hrun
  · exact pmfsWriteTransaction_wrote hs hcount hrun

/-! ## Reservations -/

/-- What a call to reserve blocks leaves: without an error there are the blocks of the range, and
they are before the end of the file unless the flag is set. -/
structure Reserved (f : File) (offset len : ℕ) (s : Env) (err : Option Error) (f' : File) (s' : Env) :
    Prop where
  extended : Extended f s (offset / 4096) ((offset + len - 1) / 4096) f' s'
  iSize_le : f.iSize ≤ f'.iSize
  found : err = none → ∀ k, offset / 4096 ≤ k → k ≤ (offset + len - 1) / 4096 → f'.ptr 0 k ≠ none
  refused : err ≠ none → f'.eofblocks = true ∨ f' = f
  inside : f'.eofblocks = true ∨ f' = f ∨ offset + len ≤ f'.iSize

theorem pmfsFallocate_reserved {keepSize : Bool} {offset len : ℕ} {trans : Option Error}
    (hs : Sound f s) (hlen : 0 < len)
    (hrun : pmfsFallocate f keepSize offset len trans s = some (err, f', s')) :
    Reserved f offset len s err f' s' := by
  cases trans with
  | some e =>
    cases hrun
    exact ⟨.refl hs, le_rfl, nofun, fun _ => .inr rfl, .inr (.inl rfl)⟩
  | none =>
    dsimp only [pmfsFallocate] at hrun
    have hlast : offset / 4096 + (offset % 4096 + len + 4095) / 4096 - 1 =
        (offset + len - 1) / 4096 := by omega
    obtain ⟨err₁, f₁, s₁, halloc, hall⟩ := pmfsAllocBlocks_allocated true hs
      (by omega : 0 < (offset % 4096 + len + 4095) / 4096) (offset / 4096)
    have hext := pmfsAllocBlocks_extended hs (by omega) halloc
    rw [hlast] at hall hext
    rw [halloc, Option.map_some] at hrun
    cases hrun
    have hfound : err₁ = none → ∀ k, offset / 4096 ≤ k → k ≤ (offset + len - 1) / 4096 →
        f₁.ptr 0 k ≠ none := by
      intro hok k hk hk'
      rw [← pmfsFindDataBlock_eq]
      exact hall.found hok k hk hk'
    have hsize := hall.iSize
    by_cases hset : err₁.isSome = true ∨ keepSize = true
    · rw [if_pos hset]
      dsimp only
      split
      · exact ⟨hext.setFlag, by dsimp only; omega, hfound, fun _ => .inl rfl, .inl rfl⟩
      · exact ⟨hext.setFlag, hsize.ge, hfound, fun _ => .inl rfl, .inl rfl⟩
    · rw [if_neg hset]
      have hnone : err₁ = none := by
        rw [← Option.not_isSome_iff_eq_none]
        exact fun h => hset (.inl h)
      have hkeep : keepSize = false := by simpa using fun h => hset (.inr h)
      rw [hkeep]
      dsimp only
      split
      · rename_i h
        exact ⟨hext.congr rfl rfl, by dsimp only; omega, hfound, fun h => absurd hnone h,
          .inr (.inr (by dsimp only; omega))⟩
      · rename_i h
        refine ⟨hext, hsize.ge, hfound, fun h => absurd hnone h, .inr (.inr ?_)⟩
        simp only [Bool.not_false, true_and, Nat.not_lt] at h
        omega

end Wpmfs.File
