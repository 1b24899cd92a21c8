import Wpmfs.File.Edges

/-!
# Writes that run out of space

Where the allocator refuses a block, a write ends early, and what it has allocated by then it has
written, or cleared. Where it refuses a page that the tree is to grow by, the edges are looked up in
a tree that is too low for them.
-/

namespace Wpmfs.File

variable {f f' : File} {s : Env} {w : Write} {block low high x : ℕ}

/-- An edge of the range that is in a block that is not there, with the bytes of it to clear. -/
inductive NewEdge (w : Write) (f : File) : (block low high : ℕ) → Prop
  | start (hnew : w.newSblk f = true) : NewEdge w f w.startBlk 0 w.sblkHigh
  | stop (hnew : w.newEblk f = true) : NewEdge w f w.endBlk w.eblkLow 4096

/-- The clearing of an edge hits nothing else, for the height that the tree gets to: there is no
pointer where its lookup leaves the root page, and only zeros where it hits the first block, which
is not below the write. -/
def Harmless (w : Write) (f : File) (s : Env) (block low high : ℕ) : Prop :=
  let height := grownHeight f w.endBlk s
  (height ≠ 0 → 512 ^ height ≤ block → w.behind (block / 512 ^ (height - 1)) = false) ∧
    (height = 0 → block ≠ 0 → ∀ b, pmfsFindDataBlock f 0 = some b →
      ∀ i, low ≤ i → i < high → i < w.pos → i < f.iSize → s.mem b i = 0)

theorem NewEdge.hole (hedge : NewEdge w f block low high) :
    pmfsFindDataBlock f block = none := by
  cases hedge with
  | start hnew => exact (newSblk_iff.mp hnew).2
  | stop hnew => exact (newEblk_iff.mp hnew).2

theorem NewEdge.le (hedge : NewEdge w f block low high) : block ≤ w.endBlk := by
  cases hedge with
  | start hnew =>
    rw [Write.endBlk, Write.numBlocks]
    omega
  | stop hnew => exact le_rfl

theorem NewEdge.high_le (hedge : NewEdge w f block low high) : high ≤ 4096 := by
  cases hedge with
  | start hnew =>
    rw [Write.sblkHigh]
    omega
  | stop hnew => exact le_rfl

theorem clears_iff_edge : w.Clears f f' x ↔ ∃ block low high, NewEdge w f block low high ∧
    x / 4096 = edgeBlk f' block ∧ low ≤ x % 4096 ∧ x % 4096 < high := by
  constructor
  · rintro (⟨hnew, hx⟩ | ⟨hnew, hx⟩)
    · exact ⟨_, _, _, .start hnew, hx⟩
    · exact ⟨_, _, _, .stop hnew, hx⟩
  · rintro ⟨_, _, _, hnew | hnew, hx⟩
    · exact .inl ⟨hnew, hx⟩
    · exact .inr ⟨hnew, hx⟩

theorem strays_iff_edge : w.Strays f f' ↔
    ∃ block low high, NewEdge w f block low high ∧ Stray w.behind f' block := by
  constructor
  · rintro (⟨hnew, hstray⟩ | ⟨hnew, hstray⟩)
    · exact ⟨_, _, _, .start hnew, hstray⟩
    · exact ⟨_, _, _, .stop hnew, hstray⟩
  · rintro ⟨_, _, _, hnew | hnew, hstray⟩
    · exact .inl ⟨hnew, hstray⟩
    · exact .inr ⟨hnew, hstray⟩

/-- In a tree that is high enough, what has been allocated is written or cleared, as far as it is
not what was there. -/
theorem Ran.keeps_of_lt {s' : Env} {err : Option Error} {r : Written} (hrun : Ran w f f' s r)
    (hcount : 0 < w.count) (hread : w.count ≤ w.readable) (hlt : w.endBlk < 512 ^ f'.height)
    (hall : Allocated f w.startBlk w.endBlk false s err f' s')
    (hx : ¬(w.pos ≤ x ∧ x < w.pos + r.written)) :
    File.contents r.file r.env.mem x = File.contents f s.mem x := by
  refine hrun.contents_eq hcount hlt hall hx fun hnone hfound => ?_
  obtain ⟨hfirst, hlast⟩ := hall.within _ hnone hfound
  obtain ⟨m, hm, hreached⟩ : ∃ m, x / 4096 < m ∧
      ∀ k, w.startBlk ≤ k → k < m → pmfsFindDataBlock f' k ≠ none := by
    cases err with
    | none => exact ⟨w.endBlk + 1, by omega, fun k hk hk' => hall.found rfl k hk (by omega)⟩
    | some e =>
      obtain ⟨m, hstopped⟩ := hall.stopped nofun
      exact ⟨m, hstopped.lt _ hnone hfound, hstopped.found⟩
  have hreach := hrun.reach m hreached
  have hend := w.endBlk_eq hcount
  rw [Write.startBlk] at hfirst
  rw [clears_iff hcount hlt]
  refine ⟨hnone, ?_⟩
  omega

/-- In a file of one block that has not grown, the clearing hits that block. -/
theorem keeps_iff_of_height_eq_zero {r : Written} (hrun : Ran w f f' s r) (hcount : 0 < w.count)
    (hread : w.count ≤ w.readable) (hzero : f'.height = 0) (hend : 1 ≤ w.endBlk)
    (hfind : ∀ k, pmfsFindDataBlock f' k = pmfsFindDataBlock f k) :
    (∀ x < f.iSize, ¬(w.pos ≤ x ∧ x < w.pos + r.written) →
      contents r.file r.env.mem x = contents f s.mem x) ↔
    ∀ block low high, NewEdge w f block low high → block ≠ 0 →
      ∀ b, pmfsFindDataBlock f 0 = some b →
        ∀ i, low ≤ i → i < high → i < w.pos → i < f.iSize → s.mem b i = 0 := by
  have hsame : contents f' s.mem = contents f s.mem := by
    funext x
    rw [contents, contents, hfind]
  have hblk : ∀ block, edgeBlk f' block = 0 := fun block => if_pos hzero
  constructor
  · intro hkept block low high hedge _ b hb i hlow hhigh hpos hi
    have hi4096 : i < 4096 := hhigh.trans_le hedge.high_le
    have hkept := hkept i hi (by omega)
    have hdiv : i / 4096 = 0 := by omega
    have hmod : i % 4096 = i := by omega
    rw [hrun.contents, if_neg (by omega), if_pos, contents_of_some (by rw [hdiv]; exact hb), hmod]
      at hkept
    · exact hkept.symm
    · rw [clears_iff_edge]
      exact ⟨block, low, high, hedge, by rw [hblk, hdiv], by omega, by omega⟩
  · intro hzeros x hx hout
    rw [hrun.contents, if_neg hout, hsame]
    split
    · rename_i hclear
      obtain ⟨block, low, high, hedge, hdiv, hlow, hhigh⟩ := clears_iff_edge.mp hclear
      rw [hblk] at hdiv
      cases hb : pmfsFindDataBlock f 0 with
      | none => rw [contents_of_none (by rwa [hdiv])]
      | some b =>
        have hblock : block ≠ 0 := by
          rintro rfl
          rw [hedge.hole] at hb
          cases hb
        have hpos : x < w.pos := by
          by_contra hle
          have hreach := hrun.reach 1 fun k _ hk => by
            rw [Nat.lt_one_iff.mp hk, hfind, hb]
            exact Option.some_ne_none b
          rw [w.endBlk_eq hcount] at hend
          omega
        rw [contents_of_some (by rwa [hdiv])]
        exact (hzeros block low high hedge hblock b hb (x % 4096) hlow hhigh (by omega)
          (by omega)).symm
    · rfl

end Wpmfs.File
