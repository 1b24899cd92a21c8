import Wpmfs.File.Runs

/-!
# Files that a mount has to finish with

After a failure the count of blocks of a file is not to be trusted: a truncation during a mount
counts what is left. With that, the truncation of a tree whose pages all have blocks below them gets
to its end, and so does the eviction of an inode. Both give back all that leaves the tree.
-/

namespace Wpmfs.File

/-- A tree that a failure has left: its pages have blocks below them, and without the flag nothing
is past the end of the file. The count of blocks may be anything. -/
structure Sane (f : File) : Prop where
  wellFormed : f.WellFormed
  inside : f.DataInside
  solid : f.root.Solid

/-- A file was cut to a size: its blocks from there on were given back, those before are where they
were, and every page that left the tree was given back. -/
structure CutTo (f : File) (n : ℕ) (out : List (ℕ × ℕ)) (f' : File) : Prop where
  size : f'.iSize = n
  below : ∀ k, k < truncateFirst n → pmfsFindDataBlock f' k = pmfsFindDataBlock f k
  gone : ∀ k, truncateFirst n ≤ k → pmfsFindDataBlock f' k = none
  entries : (out : Multiset (ℕ × ℕ)) + f'.root.entries = f.root.entries

/-- `pmfs_free_inode_subtree`, with what it gives to the allocator, the latest first; `none` is its
`BUG_ON`. -/
def freeInodeSubtree (lastBlocknr : ℕ) : (h : ℕ) → Slot h → Option (List (ℕ × ℕ))
  | 0, .data b => some [(0, b)]
  | h + 1, .page b node =>
    match recursiveTruncateBlocks h node 0 lastBlocknr with
    | (freed, true, _) => some ((h + 1, b) :: freed)
    | (_, false, _) => none
  | _, .null => some []

variable {f f' : File} {n k h newHeight newsize start stop last : ℕ} {out : List (ℕ × ℕ)}

/-! ## Truncation -/

/-- The new root is found where a block is left below it. -/
theorem lowerRoot_isSome {u : Slot h} {done : List (ℕ × ℕ)} (hk : k < 512 ^ newHeight)
    (hptr : u.ptr 0 k ≠ none) : (lowerRoot newHeight h u done).isSome := by
  induction h generalizing done with
  | zero =>
    rw [lowerRoot_stop (Nat.zero_le _)]
    rfl
  | succ h ih =>
    by_cases hle : h + 1 ≤ newHeight
    · rw [lowerRoot_stop hle]
      rfl
    · cases u with
      | null => exact absurd Slot.ptr_null hptr
      | page b node =>
        have hlt : k < 512 ^ h := hk.trans_le (Nat.pow_le_pow_right (by decide) (by omega))
        rw [Slot.ptr_page_of_le (Nat.zero_le _), Nat.div_eq_of_lt hlt, Nat.mod_eq_of_lt hlt] at hptr
        rw [lowerRoot, if_neg hle]
        exact ih hptr

/-- The height is reduced where the blocks that are left are counted, and are before the cut. -/
theorem pmfsDecreaseBtreeHeight_isSome {root u : Slot h} (hroot : u ≠ .null → root = u)
    (hfirst : truncateFirst newsize ≤ 512 ^ h)
    (hleft : u ≠ .null → ∃ k < truncateFirst newsize, k < 512 ^ h ∧ u.ptr 0 k ≠ none) :
    (pmfsDecreaseBtreeHeight u.countIblocks newsize root u).isSome := by
  rw [pmfsDecreaseBtreeHeight]
  by_cases hu : u = .null
  · have hcount : u.countIblocks = 0 := by
      rw [Slot.countIblocks_eq, hu, Slot.entries_null, map_zero]
    rw [if_pos (.inl hcount), hu]
    rfl
  · obtain ⟨k, hk, hkh, hptr⟩ := hleft hu
    obtain ⟨b, hb⟩ := Option.ne_none_iff_exists'.mp hptr
    have hcount : 0 < u.countIblocks := by
      rw [Slot.countIblocks_eq]
      exact Multiset.countP_pos.mpr ⟨(0, b), Slot.mem_entries_of_ptr hkh hb, rfl⟩
    have hsize : newsize ≠ 0 := by
      rintro rfl
      exact absurd hk (Nat.not_lt_zero _)
    have hlevels : levels ((newsize + 4095) / 4096 - 1) ≤ h := by
      rw [levels_le_iff]
      rw [truncateFirst] at hfirst hk
      omega
    have hklt : k < 512 ^ levels ((newsize + 4095) / 4096 - 1) := by
      have := levels_le_iff.mp (le_refl (levels ((newsize + 4095) / 4096 - 1)))
      rw [truncateFirst] at hk
      omega
    obtain rfl := hroot hu
    rw [if_neg (by omega)]
    dsimp only
    split
    · rfl
    · rw [if_neg (by omega)]
      exact lowerRoot_isSome hklt hptr

/-- A truncation during a mount gets to its end. -/
theorem Sane.pmfsTruncateBlocks_isSome (hf : f.Sane) :
    (pmfsTruncateBlocks true { f with iSize := n } n f.iSize).isSome := by
  rw [pmfsTruncateBlocks]
  split
  · rfl
  · cases hlast : truncateLast { f with iSize := n } f.iSize with
    | none => rfl
    | some last =>
      dsimp only
      split
      · rfl
      · rename_i hle
        have hlt := truncateLast_lt hlast
        have hdata : f.DataBy last := hf.inside.dataBy hlast
        obtain ⟨hcut, hroot⟩ :=
          truncateTree_cut f.root (show truncateFirst n ≤ last by omega) hlt
        revert hcut hroot
        rcases truncateTree (truncateFirst n) last f.height f.root with ⟨freed, u, root⟩
        dsimp only
        intro hcut hroot
        rw [Option.isSome_map, if_pos rfl]
        refine pmfsDecreaseBtreeHeight_isSome hroot ?_ fun hu => ?_
        · dsimp only at hlt
          omega
        · -- the root has a block below it, which was not cut off
          obtain ⟨k, hk, -, hptr⟩ := hcut.solid hf.solid f.height 0 (Nat.pow_pos (by decide))
            (Slot.ptr_root hu)
          have hbefore := hcut.before_data (fun h => hdata k (by rwa [ptr_of_lt hk])) hk hptr
          exact ⟨k, hbefore, hk, hptr⟩

/-- Blocks past the cut are cut off. -/
theorem Sane.dataBy (hf : f.Sane)
    (hnone : ∀ last, f.truncateLast f.iSize = some last → last < truncateFirst n)
    (hk : truncateFirst n ≤ k) : pmfsFindDataBlock f k = none := by
  rw [pmfsFindDataBlock_eq]
  by_contra hptr
  cases hlast : f.truncateLast f.iSize with
  | none =>
    have heof : f.eofblocks = false := by
      cases heof : f.eofblocks with
      | true =>
        rw [truncateLast, if_pos heof] at hlast
        cases hlast
      | false => rfl
    have hsize : f.iSize = 0 := by
      by_contra hsize
      rw [truncateLast_of_clear heof hsize] at hlast
      cases hlast
    have := hf.inside heof k hptr
    omega
  | some last =>
    have := hf.inside.dataBy hlast k hptr
    have := hnone last hlast
    omega

/-- The truncation of a file that is on the truncate list. -/
theorem Sane.pmfsTruncateBlocks_cutTo (hf : f.Sane) : ∃ out f',
    pmfsTruncateBlocks true { f with iSize := n } n f.iSize = some (out, f') ∧
      CutTo f n out f' := by
  obtain ⟨⟨out, f'⟩, hrun⟩ := Option.isSome_iff_exists.mp (hf.pmfsTruncateBlocks_isSome (n := n))
  refine ⟨out, f', hrun, ?_⟩
  rcases pmfsTruncateBlocks_cases (f := { f with iSize := n }) (.inl rfl) hrun with
    ⟨rfl, rfl, hnone⟩ | ⟨last, u, t, freed, pages, lost, hlast, hcuts⟩
  · refine ⟨rfl, fun _ _ => rfl, fun k hk => ?_, zero_add _⟩
    rcases hnone with hnull | hnone
    · rw [pmfsFindDataBlock_eq, ptr, treePtr]
      dsimp only
      rw [show f.root = .null from hnull, Slot.ptr_null, ite_self]
    · exact hf.dataBy hnone hk
  · have hdata : DataBy { f with iSize := n } last := (hf.inside.dataBy hlast : f.DataBy last)
    have hends : EndsBy { f with iSize := n } last :=
      ((hf.inside.pagesInside hf.solid).endsBy hlast : f.EndsBy last)
    have hsub : ∀ k, truncateFirst n ≤ k → pmfsFindDataBlock f' k = none := by
      intro k hk
      rw [pmfsFindDataBlock_eq]
      by_contra hptr
      obtain ⟨hlt, hleft⟩ := hcuts.ptr_left hptr
      have := hcuts.data_before hdata hlt hleft
      omega
    refine ⟨?_, fun k hk => ?_, hsub, ?_⟩
    · rw [hcuts.file, checkEofBlocks_eq]
    · have hle := hcuts.first_le
      have hlt := hcuts.last_lt
      rw [pmfsFindDataBlock_eq, pmfsFindDataBlock_eq, hcuts.ptr, hcuts.below hk]
      exact (ptr_of_lt (f := f) (show k < 512 ^ f.height by dsimp only at hlt; omega)).symm
    · -- nothing is lost with the old roots: no block is, and no page is past the last block
      have hlost : lost = 0 := by
        refine Multiset.eq_zero_of_forall_notMem fun p hp => ?_
        have hzero := hcuts.lost_data (fun l k hptr hbeyond =>
          absurd (hends l k hptr) (Nat.not_le.mpr hbeyond)) p hp
        have hnum : numData lost = 0 := hcuts.numData_lost hdata
        exact (Multiset.countP_eq_zero.mp hnum) p hp hzero
      have htotal := hcuts.total
      rw [hlost, add_zero] at htotal
      rw [hcuts.root]
      exact htotal

/-! ## Eviction -/

theorem freeInodeSubtree_isSome (h : ℕ) (root : Slot h) :
    (freeInodeSubtree last h root).isSome = pmfsFreeInodeSubtree last h root := by
  cases root with
  | null => cases h <;> rfl
  | data b => rfl
  | page b node =>
    rw [freeInodeSubtree, pmfsFreeInodeSubtree]
    rcases recursiveTruncateBlocks _ node 0 last with ⟨freed, mpty, node'⟩
    cases mpty <;> rfl

/-- All that is freed is the tree. -/
theorem freeInodeSubtree_entries {root : Slot h} (hlast : last < 512 ^ h)
    (hrun : freeInodeSubtree last h root = some out) :
    (out : Multiset (ℕ × ℕ)) = root.entries := by
  cases root with
  | null =>
    cases h <;>
    · cases hrun
      rfl
  | data b =>
    cases hrun
    rfl
  | page b node =>
    have hcut := recursiveTruncateBlocks_cut b node (Nat.zero_le last) hlast
    rw [freeInodeSubtree] at hrun
    revert hrun hcut
    rcases recursiveTruncateBlocks _ node 0 last with ⟨freed, mpty, node'⟩
    cases mpty with
    | false =>
      intro hrun
      cases hrun
    | true =>
      intro hrun hcut
      cases hrun
      have hentries := hcut.entries
      simpa [leftOf] using hentries

theorem evictLastBlocknr_lt (f : File) : f.evictLastBlocknr < 512 ^ f.height := by
  rw [evictLastBlocknr]
  split
  · exact Nat.sub_lt (Nat.pow_pos (by decide)) Nat.one_pos
  · exact pmfsSparseLastBlocknr_lt _ _

/-- The eviction of an inode gives back its tree. -/
theorem Sane.freeInodeSubtree (hf : f.Sane) : ∃ out,
    File.freeInodeSubtree f.evictLastBlocknr f.height f.root = some out ∧
      (out : Multiset (ℕ × ℕ)) = f.root.entries := by
  have hpages := hf.inside.pagesInside hf.solid
  have hsome := @freeInodeSubtree_isSome f.evictLastBlocknr f.height f.root
  rw [pmfsFreeInodeSubtree_of_inside hf.inside hpages] at hsome
  obtain ⟨out, hrun⟩ := Option.isSome_iff_exists.mp hsome
  exact ⟨out, hrun, freeInodeSubtree_entries f.evictLastBlocknr_lt hrun⟩

end Wpmfs.File
