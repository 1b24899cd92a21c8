import Wpmfs.File.Extend

/-!
# Runs of calls on a file

Writes, reservations and changes of the size, in any order, from a new file. Two things that the
code relies on later are not true of all runs: that each page of pointers has a block behind it, and
that there is nothing past the end of a file without the flag.
-/

namespace Wpmfs.File

open Spans

variable {f f' : File} {s s' : Env} {w : Write} {k l n first last stop start : ℕ} {err : Option Error}

/-- The calls that change a file. -/
inductive Call where
  | write (w : Write)
  | fallocate (keepSize : Bool) (offset len : ℕ) (newTransaction : Option Error)
  | setSize (n : ℕ)

namespace Call

/-- What the call returns, and the file. -/
def run : Call → File → Env → Option (Except Error ℕ × File)
  | write w, f, s => (pmfsXipFileWrite w f s).map fun r => (r.ret, r.file)
  | fallocate keepSize offset len newTransaction, f, s =>
    (pmfsFallocate f keepSize offset len newTransaction s).map fun (err, f, _) =>
      (err.elim (.ok 0) .error, f)
  | setSize n, f, _ => (pmfsNotifyChange f n).map fun (_, f) => (.ok 0, f)

/-- No reservation of nothing comes from the VFS. -/
def Valid : Call → Prop
  | fallocate _ _ len _ => 0 < len
  | _ => True

end Call

/-- The files that calls with `P` lead to. At each call the allocator may answer as it likes, with
blocks that are not in use. -/
inductive Reached (P : Call → File → Env → Except Error ℕ → File → Prop) : File → Prop
  | new (mode : ℕ) : Reached P ⟨0, .null, 0, 0, false, mode⟩
  | call {c : Call} {f f' : File} {s : Env} {ret : Except Error ℕ} (hf : Reached P f)
      (hs : s.Gives (f.root.entries.map Prod.snd)) (hc : c.Valid)
      (hrun : c.run f s = some (ret, f')) (hP : P c f s ret f') : Reached P f'

/-! ## What an extension preserves -/

/-- Two pointers that meet lead to a block of the range. -/
theorem exists_of_meets (hmeets : Meets 512 first last l k) (hle : first ≤ last) :
    ∃ j, first ≤ j ∧ j ≤ last ∧ j / 512 ^ l = k / 512 ^ l := by
  have hpos : 0 < 512 ^ l := Nat.pow_pos (by decide)
  by_cases hstart : pageStart l k ≤ first
  · have hdiv := Nat.div_le_div_right (c := 512 ^ l) hstart
    rw [pageStart, Nat.mul_div_cancel _ hpos] at hdiv
    exact ⟨first, le_rfl, hle, le_antisymm hmeets.1 hdiv⟩
  · exact ⟨pageStart l k, by omega, pageStart_mono hmeets.2, Nat.mul_div_cancel _ hpos⟩

namespace Extended

/-- Each page still has a block, if the range has been filled. A tree that was empty is to be filled
from its first page on. -/
theorem solid (hext : Extended f s first last f' s') (hsolid : f.root.Solid) (hle : first ≤ last)
    (hfound : ∀ k, first ≤ k → k ≤ last → f'.ptr 0 k ≠ none)
    (hnull : f.root = .null → first < 512) : f'.root.Solid := by
  intro l k hk hptr
  rw [← ptr_of_lt hk] at hptr
  have hfile : ∀ j, j / 512 ^ l = k / 512 ^ l → f'.ptr 0 j ≠ none →
      ∃ j < 512 ^ f'.height, j / 512 ^ l = k / 512 ^ l ∧ f'.root.ptr 0 j ≠ none := by
    intro j hjk hptr'
    have hj := lt_of_ptr hptr'
    exact ⟨j, hj, hjk, by rwa [← ptr_of_lt hj]⟩
  by_cases hold : f.ptr l k = none
  · rcases hext.meets l k hold hptr with ⟨hl, hkl⟩ | hmeets
    · -- A page above the old root: the block is one of the old tree, or the first one.
      by_cases hroot : f.root = .null
      · have hfirst := (hnull hroot).trans_le
          (Nat.pow_le_pow_right (show 0 < 512 by decide) (show 1 ≤ l by omega))
        exact hfile first (by rw [Nat.div_eq_of_lt hfirst, Nat.div_eq_of_lt hkl])
          (hfound first le_rfl hle)
      · obtain ⟨j, hj, -, hptr'⟩ :=
          hsolid f.height 0 (Nat.pow_pos (by decide)) (Slot.ptr_root hroot)
        have hlt := hj.trans_le (Nat.pow_le_pow_right (show 0 < 512 by decide) hl.le)
        exact hfile j (by rw [Nat.div_eq_of_lt hlt, Nat.div_eq_of_lt hkl])
          (hext.found (by rwa [ptr_of_lt hj]))
    · obtain ⟨j, hj, hj', hjk⟩ := exists_of_meets hmeets hle
      exact hfile j hjk (hfound j hj hj')
  · have hkf := lt_of_ptr hold
    rw [ptr_of_lt hkf] at hold
    obtain ⟨j, hj, hjk, hptr'⟩ := hsolid l k hkf hold
    exact hfile j hjk (hext.found (by rwa [ptr_of_lt hj]))

theorem clear (hext : Extended f s first last f' s') (heof : f'.eofblocks = false) :
    f.eofblocks = false := by
  by_contra hflag
  rw [hext.flag (by simpa using hflag)] at heof
  cases heof

theorem counted (hext : Extended f s first last f' s') (hf : f.Counted)
    (hsize : f.iSize ≤ f'.iSize) (hdata : f'.eofblocks = true ∨
      ∀ k, f.ptr 0 k = none → f'.ptr 0 k ≠ none → k * 4096 < f'.iSize) : f'.Counted := by
  refine ⟨hext.sound.1, hext.count hf.count, fun heof k hptr => ?_⟩
  by_cases hold : f.ptr 0 k = none
  · exact hdata.resolve_left (by simp [heof]) k hold hptr
  · exact (hf.inside (hext.clear heof) k hold).trans_le hsize

theorem pagesInside (hext : Extended f s first last f' s') (hf : f.PagesInside)
    (hsize : f.iSize ≤ f'.iSize) (hpages : f'.eofblocks = true ∨ ∀ l k, f.ptr l k = none →
      f'.ptr l k ≠ none → pageStart l k = 0 ∨ pageStart l k * 4096 < f'.iSize) :
    f'.PagesInside := by
  intro heof l k hptr
  by_cases hold : f.ptr l k = none
  · exact hpages.resolve_left (by simp [heof]) l k hold hptr
  · exact (hf (hext.clear heof) l k hold).imp_right fun hlt => hlt.trans_le hsize

end Extended

namespace Reserved

variable {offset len : ℕ}

theorem counted (hreserved : Reserved f offset len s err f' s') (hlen : 0 < len) (hf : f.Counted) :
    f'.Counted := by
  refine hreserved.extended.counted hf hreserved.iSize_le ?_
  rcases hreserved.inside with hflag | rfl | hsize
  · exact .inl hflag
  · exact .inr fun k h h' => absurd h h'
  · refine .inr fun k hnone hptr => ?_
    rcases hreserved.extended.meets 0 k hnone hptr with ⟨hl, -⟩ | hmeets
    · exact absurd hl (Nat.not_lt_zero _)
    · have hlast := (meets_zero.mp hmeets).2
      omega

theorem pagesInside (hreserved : Reserved f offset len s err f' s') (hlen : 0 < len)
    (hf : f.Counted) (hpages : f.PagesInside) : f'.PagesInside := by
  cases heof : f'.eofblocks with
  | true => exact fun h => absurd (heof.symm.trans h) (by decide)
  | false =>
    by_cases hsame : f' = f
    · rwa [hsame]
    · have herr : err = none := by
        by_contra herr
        exact (hreserved.refused herr).elim (by simp [heof]) hsame
      refine hreserved.extended.pagesInside hpages hreserved.iSize_le (.inr fun l k hnone hptr => ?_)
      rcases hreserved.extended.meets l k hnone hptr with ⟨-, hk⟩ | hmeets
      · exact .inl (pageStart_eq_zero hk)
      · have hlast := (hreserved.counted hlen hf).inside heof _
          (hreserved.found herr _ (by omega) le_rfl)
        exact .inr ((Nat.mul_le_mul_right _ (pageStart_mono hmeets.2)).trans_lt hlast)

end Reserved

/-! ## Pages with blocks behind them -/

/-- The calls that leave no page without a block behind it: a file without blocks gets its first
ones below the block 512, and a reservation that fails leaves no such page. -/
def KeepsPages : Call → File → Env → Except Error ℕ → File → Prop
  | .write w, f, _, ret, _ => ret = .ok w.count ∧ (f.root = .null → w.count = 0 ∨ w.startBlk < 512)
  | .fallocate _ offset _ _, f, _, ret, f' =>
    (ret = .ok 0 → f.root = .null → offset / 4096 < 512) ∧ (ret ≠ .ok 0 → f'.root.Solid)
  | .setSize _, _, _, _, _ => True

/-- What `pmfs_decrease_btree_height` is called with by a change of the size: the root is null where
there are no blocks, or there are to be none. -/
def EmptyIsNull (f : File) (start stop : ℕ) : Prop :=
  ∀ last, f.truncateLast stop = some last → truncateFirst start ≤ last →
    (f.iBlocks - (truncateTree (truncateFirst start) last f.height f.root).1.countP
      (fun p => p.1 = 0) = 0 ∨ start = 0) →
    (truncateTree (truncateFirst start) last f.height f.root).2.1.isNull = true

theorem new_counted (mode : ℕ) : Counted ⟨0, .null, 0, 0, false, mode⟩ :=
  ⟨⟨Nat.zero_le _, fun _ => rfl, by simp, by simp⟩, by simp, fun _ k hptr => by simp [ptr, treePtr] at hptr⟩

theorem Counted.emptyIsNull (hf : f.Counted) (hsolid : f.root.Solid) :
    EmptyIsNull { f with iSize := n } n f.iSize := by
  intro last hlast hle hempty
  obtain ⟨hcut, -⟩ := truncateTree_cut f.root hle (truncateLast_lt hlast)
  revert hempty hcut
  dsimp only
  generalize truncateTree (truncateFirst n) last f.height f.root = r
  intro hempty hcut
  by_contra hne
  have hu : r.2.1 ≠ .null := fun h => hne (Slot.isNull_iff.mpr h)
  have hpos : 0 < 512 ^ f.height := Nat.pow_pos (by decide)
  have hroot : r.2.1.ptr f.height 0 ≠ none := Slot.ptr_root hu
  rcases hempty with hblocks | rfl
  · obtain ⟨j, hj, -, hptr⟩ := hcut.solid hsolid f.height 0 hpos hroot
    obtain ⟨b, hb⟩ := Option.ne_none_iff_exists'.mp hptr
    have hmem : 0 < numData r.2.1.entries :=
      Multiset.countP_pos.mpr ⟨(0, b), Slot.mem_entries_of_ptr hj hb, rfl⟩
    have hentries := congrArg numData hcut.entries
    rw [map_add, numData_coe] at hentries
    have := hf.count
    omega
  · have hends : f.EndsBy last := (hf.pagesInside hsolid).endsBy hlast
    have hbefore := hcut.before (fun l k hk hptr => hends l k (by rwa [ptr_of_lt hk])) hpos hroot
    exact absurd hbefore (Nat.not_lt_zero _)

theorem Call.keepsPages {c : Call} {ret : Except Error ℕ} (hf : f.Counted) (hsolid : f.root.Solid)
    (hs : s.Gives (f.root.entries.map Prod.snd)) (hc : c.Valid)
    (hrun : c.run f s = some (ret, f')) (hkeeps : KeepsPages c f s ret f') :
    f'.Counted ∧ f'.root.Solid := by
  have hsound : Sound f s := ⟨hf.wellFormed, hs⟩
  cases c with
  | write w =>
    obtain ⟨hret, hfirst⟩ := hkeeps
    obtain ⟨r, hwrite, heq⟩ := Option.map_eq_some_iff.mp hrun
    cases heq
    rcases Nat.eq_zero_or_pos w.count with hcount | hcount
    · rw [pmfsXipFileWrite, if_pos hcount] at hwrite
      cases hwrite
      exact ⟨hf, hsolid⟩
    · have hwrote := pmfsXipFileWrite_wrote hsound hcount hwrite
      have hend := w.endBlk_eq hcount
      have hsize := hwrote.size _ hret
      refine ⟨hwrote.extended.counted hf hwrote.iSize_le (.inr fun k hnone hptr => ?_),
        hwrote.extended.solid hsolid ?_ (hwrote.found hret) fun hnull =>
          (hfirst hnull).resolve_left hcount.ne'⟩
      · rcases hwrote.extended.meets 0 k hnone hptr with ⟨hl, -⟩ | hmeets
        · exact absurd hl (Nat.not_lt_zero _)
        · have hlast := (meets_zero.mp hmeets).2
          rw [hend] at hlast
          omega
      · rw [hend, Write.startBlk]
        omega
  | fallocate keepSize offset len newTransaction =>
    obtain ⟨⟨err, f₁, s₁⟩, hfallocate, heq⟩ := Option.map_eq_some_iff.mp hrun
    cases heq
    have hreserved := pmfsFallocate_reserved hsound hc hfallocate
    have hle : offset / 4096 ≤ (offset + len - 1) / 4096 := by
      have : 0 < len := hc
      omega
    refine ⟨hreserved.counted hc hf, ?_⟩
    cases err with
    | none => exact hreserved.extended.solid hsolid hle (hreserved.found rfl) (hkeeps.1 rfl)
    | some e => exact hkeeps.2 (by simp)
  | setSize n =>
    obtain ⟨⟨out, f₁⟩, hchange, heq⟩ := Option.map_eq_some_iff.mp hrun
    cases heq
    obtain ⟨hcounted, -, hpages⟩ := pmfsNotifyChange_counted hf hchange
    exact ⟨hcounted, hpages hsolid⟩

/-- The writes that return what they are asked for. -/
def Successful : Call → File → Env → Except Error ℕ → File → Prop
  | .write w, _, _, ret, _ => ret = .ok w.count
  | _, _, _, _, _ => True

/-- The writes after which the end of the file is past their blocks. -/
def DataFits : Call → File → Env → Except Error ℕ → File → Prop
  | .write w, f, s, _, _ => w.count = 0 ∨ Fits w f s ∨ ∃ e, Fails w f e
  | _, _, _, _, _ => True

/-- Those after which it is past the start of their pages, too. -/
def PagesFit : Call → File → Env → Except Error ℕ → File → Prop
  | .write w, f, s, ret, f' => DataFits (.write w) f s ret f' ∧
      (w.count = 0 ∨ s.HasNodes ∨ w.endBlk < 512 ^ 2 ∨ w.endBlk * 4096 < f.iSize ∨ ∃ e, Fails w f e)
  | _, _, _, _, _ => True

theorem Call.counted {c : Call} {ret : Except Error ℕ} (hf : f.Counted)
    (hs : s.Gives (f.root.entries.map Prod.snd)) (hc : c.Valid)
    (hrun : c.run f s = some (ret, f')) (hfits : DataFits c f s ret f') : f'.Counted := by
  have hsound : Sound f s := ⟨hf.wellFormed, hs⟩
  cases c with
  | write w =>
    obtain ⟨r, hwrite, heq⟩ := Option.map_eq_some_iff.mp hrun
    cases heq
    rcases Nat.eq_zero_or_pos w.count with hcount | hcount
    · rw [pmfsXipFileWrite, if_pos hcount] at hwrite
      cases hwrite
      exact hf
    · have hwrote := pmfsXipFileWrite_wrote hsound hcount hwrite
      exact hwrote.extended.counted hf hwrote.iSize_le
        (hwrote.data (hfits.resolve_left hcount.ne'))
  | fallocate keepSize offset len newTransaction =>
    obtain ⟨⟨err, f₁, s₁⟩, hfallocate, heq⟩ := Option.map_eq_some_iff.mp hrun
    cases heq
    exact (pmfsFallocate_reserved hsound hc hfallocate).counted hc hf
  | setSize n =>
    obtain ⟨⟨out, f₁⟩, hchange, heq⟩ := Option.map_eq_some_iff.mp hrun
    cases heq
    exact (pmfsNotifyChange_counted hf hchange).1

theorem Call.pagesInside {c : Call} {ret : Except Error ℕ} (hf : f.Counted) (hpages : f.PagesInside)
    (hs : s.Gives (f.root.entries.map Prod.snd)) (hc : c.Valid)
    (hrun : c.run f s = some (ret, f')) (hfits : PagesFit c f s ret f') :
    f'.Counted ∧ f'.PagesInside := by
  have hsound : Sound f s := ⟨hf.wellFormed, hs⟩
  cases c with
  | write w =>
    have hcounted := Call.counted hf hs hc hrun hfits.1
    refine ⟨hcounted, ?_⟩
    obtain ⟨r, hwrite, heq⟩ := Option.map_eq_some_iff.mp hrun
    cases heq
    rcases Nat.eq_zero_or_pos w.count with hcount | hcount
    · rw [pmfsXipFileWrite, if_pos hcount] at hwrite
      cases hwrite
      exact hpages
    · have hwrote := pmfsXipFileWrite_wrote hsound hcount hwrite
      refine hwrote.extended.pagesInside hpages hwrote.iSize_le ?_
      cases heof : r.file.eofblocks with
      | true => exact .inl rfl
      | false =>
        refine .inr fun l k hnone hptr => ?_
        have hfed : (s.HasNodes ∨ w.endBlk < 512 ^ 2) →
            pageStart l k = 0 ∨ pageStart l k * 4096 < r.file.iSize := by
          intro hnodes
          refine ((hwrote.extended.fed hnodes).resolve_left (by simp [heof]) l k hnone
            hptr).imp_right fun hbehind => ?_
          obtain ⟨j, hj, hle⟩ := hbehind
          exact (Nat.mul_le_mul_right _ hle).trans_lt (hcounted.inside heof j hj)
        rcases hfits.2.resolve_left hcount.ne' with hnodes | hlast | hsize | hfails
        · exact hfed (.inl hnodes)
        · exact hfed (.inr hlast)
        · rcases hwrote.extended.meets l k hnone hptr with ⟨-, hk⟩ | hmeets
          · exact .inl (pageStart_eq_zero hk)
          · have hlt := (Nat.mul_le_mul_right 4096 (pageStart_mono hmeets.2)).trans_lt hsize
            exact .inr (hlt.trans_le hwrote.iSize_le)
        · exact absurd ((hwrote.same hfails l k).trans hnone) hptr
  | fallocate keepSize offset len newTransaction =>
    obtain ⟨⟨err, f₁, s₁⟩, hfallocate, heq⟩ := Option.map_eq_some_iff.mp hrun
    cases heq
    have hreserved := pmfsFallocate_reserved hsound hc hfallocate
    exact ⟨hreserved.counted hc hf, hreserved.pagesInside hc hf hpages⟩
  | setSize n =>
    obtain ⟨⟨out, f₁⟩, hchange, heq⟩ := Option.map_eq_some_iff.mp hrun
    cases heq
    obtain ⟨hcounted, hpages', -⟩ := pmfsNotifyChange_counted hf hchange
    exact ⟨hcounted, hpages' hpages⟩

theorem pmfsSparseLastBlocknr_lt (height n : ℕ) : pmfsSparseLastBlocknr height n < 512 ^ height := by
  have hpos : 0 < 512 ^ height := Nat.pow_pos (by decide)
  rw [pmfsSparseLastBlocknr]
  split <;> omega

/-- Where nothing is past the block that `pmfs_evict_inode` passes on, the tree is freed. -/
theorem pmfsFreeInodeSubtree_of_inside (hdata : f.DataInside) (hpages : f.PagesInside) :
    pmfsFreeInodeSubtree f.evictLastBlocknr f.height f.root = true := by
  have hle : ∀ l k, f.ptr l k ≠ none → pageStart l k ≤ f.evictLastBlocknr := by
    intro l k hptr
    have hk := lt_of_ptr hptr
    have hstart := pageStart_le l k
    rw [evictLastBlocknr]
    split
    · omega
    · rename_i heof
      have := hpages (by simpa using heof) l k hptr
      rw [pmfsSparseLastBlocknr]
      split <;> split at * <;> omega
  have hlt : f.evictLastBlocknr < 512 ^ f.height := by
    have hpos : 0 < 512 ^ f.height := Nat.pow_pos (by decide)
    rw [evictLastBlocknr]
    split
    · omega
    · exact pmfsSparseLastBlocknr_lt _ _
  obtain ⟨height, root, iSize, iBlocks, eofblocks, iMode⟩ := f
  revert hle hlt
  generalize evictLastBlocknr _ = last
  intro hle hlt
  cases root with
  | null => cases height <;> rfl
  | data b => rfl
  | @page h b node =>
    have hcut := recursiveTruncateBlocks_cut b node (Nat.zero_le last) hlt
    rw [pmfsFreeInodeSubtree]
    by_contra hleft
    have hpos : 0 < 512 ^ (h + 1) := Nat.pow_pos (by decide)
    have hroot := Slot.ptr_root (k := 0) (t := leftOf ((recursiveTruncateBlocks h node 0 last).1,
      (recursiveTruncateBlocks h node 0 last).2.1,
      Slot.page b (recursiveTruncateBlocks h node 0 last).2.2)) (by
        rw [leftOf, if_neg (by simpa using hleft)]
        intro h
        cases h)
    refine absurd (hcut.before (fun l k hk hptr => ?_) hpos hroot) (Nat.not_lt_zero _)
    have hdiv := Nat.div_le_div_right (c := 512 ^ l) (hle l k (by rwa [ptr_of_lt hk]))
    rwa [pageStart, Nat.mul_div_cancel _ (Nat.pow_pos (by decide))] at hdiv

end Wpmfs.File
