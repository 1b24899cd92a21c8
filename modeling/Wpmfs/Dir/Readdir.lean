import Wpmfs.Dir.Dots

/-!
# Walks over directories with any content

`pmfs_readdir` keeps a position in the directory and an offset in the block. On an entry that
`pmfs_check_dir_entry` rejects it rounds the position up to a multiple of the block size, which is
no progress if the entry is the first of its block. The walks of `pmfs_search_dirblock` and
`pmfs_empty_dir` always end.

Blocks hold anything, and there may be holes. What `pmfs_readdir` reads from the inode of an entry
is left out.
-/

namespace Wpmfs.Dir

open Bytes

/-- What is handed to `dir_emit`. -/
abbrev Emitted := List (Name × ℕ)

/-- `ALIGN(pos, s_blocksize)`. -/
def alignPos (pos : ℕ) : ℕ := (pos + blockSize - 1) / blockSize * blockSize

/-- How the loop over a block is left: `dir_emit` refuses an entry, or the next block is due. -/
inductive Left where
  | refused (pos : ℕ) (out : Emitted)
  | next (pos : ℕ) (out : Emitted)

/-- The inner loop of `pmfs_readdir`. `emit` says whether `dir_emit` takes the last of the entries
that it got so far. -/
def readdirBlock (emit : Emitted → Bool) (b : Block) (size pos offset : ℕ) (out : Emitted) : Left :=
  if pos < size ∧ offset < blockSize then
    if h : pmfsCheckDirEntry b offset then
      if ino b offset ≠ 0 then
        let out' := out ++ [((direntAt b offset).name, ino b offset)]
        if emit out' then
          readdirBlock emit b size (pos + deLen b offset) (offset + deLen b offset) out'
        else .refused pos out
      else readdirBlock emit b size (pos + deLen b offset) (offset + deLen b offset) out
    else .next (alignPos pos) out
  else .next pos out
termination_by blockSize - offset
decreasing_by all_goals have := deLen_pos_of_check h; omega

/-- The outer loop of `pmfs_readdir`, with the position and the entries that were taken. The block
of a position is `none` for a hole. -/
def readdirLoop (emit : Emitted → Bool) (blocks : List (Option Block)) :
    (fuel pos offset : ℕ) → Emitted → Option (ℕ × Emitted)
  | 0, _, _, _ => none
  | fuel + 1, pos, offset, out =>
    if pos < blocks.length * blockSize then
      match blocks[pos / blockSize]?.join with
      | none => readdirLoop emit blocks fuel (pos + (blockSize - offset)) offset out
      | some b =>
        match readdirBlock emit b (blocks.length * blockSize) pos offset out with
        | .refused pos out => some (pos, out)
        | .next pos out => readdirLoop emit blocks fuel pos 0 out
    else some (pos, out)

/-- `pmfs_readdir` from the position `ctx->pos`. -/
def pmfsReaddir (emit : Emitted → Bool) (blocks : List (Option Block)) (fuel pos : ℕ) :
    Option (ℕ × Emitted) :=
  readdirLoop emit blocks fuel pos (pos % blockSize) []

/-- The loop of `pmfs_search_dirblock` with the number of its rounds bounded. -/
def searchLoop (b : Block) (child : Name) : (fuel de : ℕ) → Option ℕ → Option Search
  | 0, _, _ => none
  | fuel + 1, de, pde =>
    if de < blockSize then
      if de + child.length ≤ blockSize ∧ pmfsMatch child b de then
        if pmfsCheckDirEntry b de then some (.found de pde) else some .bad
      else if deLen b de = 0 then some .bad
      else searchLoop b child fuel (pmfsNextEntry b de) (some de)
    else some .notFound

/-- The loop of `pmfs_empty_dir` over a directory that may have holes. -/
def emptyLoop (blocks : List (Option Block)) : (fuel : ℕ) → Option Block → (de offset : ℕ) →
    Option Bool
  | 0, _, _, _ => none
  | fuel + 1, blkBase, de, offset =>
    if offset < blocks.length * blockSize then
      match if blkBase.isNone ∨ blockSize ≤ de then (blocks[offset / blockSize]?.join, 0)
        else (blkBase, de) with
      | (none, de) => emptyLoop blocks fuel none de (offset + blockSize)
      | (some b, de) =>
        if pmfsCheckDirEntry b de then
          if ino b de ≠ 0 then some false
          else emptyLoop blocks fuel (some b) (pmfsNextEntry b de) (offset + deLen b de)
        else emptyLoop blocks fuel (some b) blockSize ((offset / blockSize + 1) * blockSize)
    else some true

/-- `pmfs_empty_dir` of the directory with inode number `iIno`. -/
def pmfsEmptyDirLoop (iIno : ℕ) (blocks : List (Option Block)) (fuel : ℕ) : Option Bool :=
  if blocks.length * blockSize < pmfsDirRecLen 1 + pmfsDirRecLen 2 then some true
  else
    match blocks[0]?.join with
    | none => some true
    | some b =>
      let de1 := pmfsNextEntry b 0
      if ino b 0 ≠ iIno ∨ ino b de1 = 0 ∨ !strEq dot b 0 ∨ !strEq dotdot b de1 then some true
      else emptyLoop blocks fuel (some b) (pmfsNextEntry b de1) (deLen b 0 + deLen b de1)

/-- Some block starts with an entry that `pmfs_check_dir_entry` rejects. -/
def StartsBad (blocks : List (Option Block)) : Prop :=
  ∃ b, some b ∈ blocks ∧ pmfsCheckDirEntry b 0 = false

variable {emit : Emitted → Bool} {b : Block} {blocks : List (Option Block)} {out out' : Emitted}
  {size pos pos' offset k fuel de iIno : ℕ}

/-! ## The bounded loops end -/

theorem searchLoop_eq {child : Name} {pde : Option ℕ} (h : blockSize - de < fuel) :
    searchLoop b child fuel de pde = some (searchFrom b child de pde) := by
  induction fuel generalizing de pde with
  | zero => omega
  | succ fuel ih =>
    rw [searchLoop, searchFrom]
    have hnext : de < blockSize → deLen b de ≠ 0 → blockSize - pmfsNextEntry b de < fuel := by
      intro hlt hpos
      rw [pmfsNextEntry]
      omega
    grind

theorem exists_emptyLoop (blkBase : Option Block) (de offset : ℕ)
    (h : blocks.length * blockSize - offset < fuel) :
    ∃ r, emptyLoop blocks fuel blkBase de offset = some r := by
  induction fuel generalizing blkBase de offset with
  | zero => omega
  | succ fuel ih =>
    rw [emptyLoop]
    split
    · rename_i hlt
      split
      · exact ih _ _ _ (by unfold blockSize at *; omega)
      · rename_i b de heq
        split
        · rename_i hcheck
          have hpos := deLen_pos_of_check hcheck
          split
          · exact ⟨_, rfl⟩
          · exact ih _ _ _ (by omega)
        · exact ih _ _ _ (by unfold blockSize at *; omega)
    · exact ⟨_, rfl⟩

/-- Without holes the loop is the one of `pmfsEmptyDir`. -/
theorem emptyLoop_eq {bs : List Block} (b : Block) (de offset : ℕ)
    (h : bs.length * blockSize - offset < fuel) :
    emptyLoop (bs.map some) fuel (some b) de offset = some (emptyFrom bs b de offset) := by
  induction fuel generalizing b de offset with
  | zero => omega
  | succ fuel ih =>
    rw [emptyLoop, emptyFrom, List.length_map]
    by_cases hlt : offset < bs.length * blockSize
    · have hk : offset / blockSize < bs.length := Nat.div_lt_of_lt_mul (by rwa [Nat.mul_comm])
      have hblock : ((bs.map some)[offset / blockSize]?).join =
          some (bs.getD (offset / blockSize) fun _ => 0) := by
        simp [hk]
      have hnext : offset < (offset / blockSize + 1) * blockSize := by
        unfold blockSize
        omega
      rw [if_pos hlt, if_pos hlt, hblock]
      by_cases hend : blockSize ≤ de
      · rw [if_pos (.inr hend), if_pos hend]
        generalize bs.getD (offset / blockSize) (fun _ => 0) = c
        by_cases hcheck : pmfsCheckDirEntry c 0 = true
        · have hpos := deLen_pos_of_check hcheck
          simp only [hcheck, if_true, dif_pos]
          split
          · rfl
          · exact ih _ _ _ (by omega)
        · simp only [hcheck, if_false, Bool.false_eq_true, dif_neg, not_false_eq_true]
          exact ih _ _ _ (by omega)
      · rw [if_neg (by simpa using hend), if_neg hend]
        by_cases hcheck : pmfsCheckDirEntry b de = true
        · have hpos := deLen_pos_of_check hcheck
          simp only [hcheck, if_true, dif_pos]
          split
          · rfl
          · exact ih _ _ _ (by omega)
        · simp only [hcheck, if_false, Bool.false_eq_true, dif_neg, not_false_eq_true]
          exact ih _ _ _ (by omega)
    · rw [if_neg hlt, if_neg hlt]

theorem exists_pmfsEmptyDirLoop (iIno : ℕ) (blocks : List (Option Block)) :
    ∃ fuel r, pmfsEmptyDirLoop iIno blocks fuel = some r := by
  refine ⟨blocks.length * blockSize + 1, ?_⟩
  rw [pmfsEmptyDirLoop]
  split
  · exact ⟨_, rfl⟩
  · split
    · exact ⟨_, rfl⟩
    · dsimp only
      split
      · exact ⟨_, rfl⟩
      · exact exists_emptyLoop _ _ _ (by omega)

/-! ## Progress of `pmfs_readdir` -/

theorem le_alignPos (pos : ℕ) : pos ≤ alignPos pos := by
  unfold alignPos blockSize
  omega

theorem alignPos_of_pos (h : 0 < pos % blockSize) :
    alignPos pos = (pos / blockSize + 1) * blockSize := by
  unfold alignPos blockSize at *
  omega

theorem alignPos_of_zero (h : pos % blockSize = 0) : alignPos pos = pos := by
  unfold alignPos blockSize at *
  omega

theorem readdirBlock_le (h : readdirBlock emit b size pos offset out = .next pos' out') :
    pos ≤ pos' := by
  fun_induction readdirBlock emit b size pos offset out with
  | case1 pos offset out hlt hcheck hlive out₁ hemit ih => exact (Nat.le_add_right ..).trans (ih h)
  | case2 => cases h
  | case3 pos offset out hlt hcheck hunused ih => exact (Nat.le_add_right ..).trans (ih h)
  | case4 =>
    cases h
    exact le_alignPos _
  | case5 =>
    cases h
    exact le_rfl

/-- An entry that is not rejected moves the position. -/
theorem readdirBlock_lt (hpos : pos < size) (hoffset : offset < blockSize)
    (hcheck : pmfsCheckDirEntry b offset = true)
    (h : readdirBlock emit b size pos offset out = .next pos' out') : pos < pos' := by
  have hlen := deLen_pos_of_check hcheck
  rw [readdirBlock, if_pos ⟨hpos, hoffset⟩, dif_pos hcheck] at h
  split at h
  · dsimp only at h
    split at h
    · have := readdirBlock_le h
      omega
    · cases h
  · have := readdirBlock_le h
    omega

theorem readdirBlock_rejected (hpos : pos < size) (hoffset : offset < blockSize)
    (hcheck : pmfsCheckDirEntry b offset = false) :
    readdirBlock emit b size pos offset out = .next (alignPos pos) out := by
  rw [readdirBlock, if_pos ⟨hpos, hoffset⟩, dif_neg (by simp [hcheck])]

/-- Each round moves the position, unless the entry it starts with is rejected at the start of a
block; then the next round starts with the first entry of the block. -/
theorem exists_readdirLoop (hgood : ¬StartsBad blocks) (hoffset : offset < blockSize)
    (hfuel : 2 * (blocks.length * blockSize - pos) + min offset 1 < fuel) :
    ∃ r, readdirLoop emit blocks fuel pos offset out = some r := by
  induction fuel generalizing pos offset out with
  | zero => omega
  | succ fuel ih =>
    rw [readdirLoop]
    split
    · rename_i hpos
      split
      · exact ih hoffset (by omega)
      · rename_i b hb
        have hmem : some b ∈ blocks := List.mem_of_getElem? (Option.join_eq_some_iff.mp hb)
        have hfirst : pmfsCheckDirEntry b 0 = true := by
          by_contra hbad
          exact hgood ⟨b, hmem, by simpa using hbad⟩
        split
        · exact ⟨_, rfl⟩
        · rename_i pos' out' hleft
          by_cases hcheck : pmfsCheckDirEntry b offset = true
          · have := readdirBlock_lt hpos hoffset hcheck hleft
            exact ih (by decide) (by omega)
          · -- the entry is not the first one of its block
            have hne : offset ≠ 0 := fun h => hcheck (h ▸ hfirst)
            have := readdirBlock_le hleft
            exact ih (by decide) (by omega)
    · exact ⟨_, rfl⟩

/-- `pmfs_check_dir_entry` accepts entries that end in their block only. -/
theorem end_le_of_check (h : pmfsCheckDirEntry b offset = true) :
    offset + deLen b offset ≤ blockSize := by
  by_contra hlong
  unfold pmfsCheckDirEntry errorMsg at h
  grind

/-- Where the position and the offset agree, a walk that `dir_emit` does not stop gets to the end of
the block. -/
theorem readdirBlock_aligned (b : Block) (out : Emitted) (hsize : (k + 1) * blockSize ≤ size)
    (hoffset : offset ≤ blockSize) (hfirst : offset = 0 → pmfsCheckDirEntry b 0 = true) :
    ∃ out', readdirBlock (fun _ => true) b size (k * blockSize + offset) offset out =
      .next ((k + 1) * blockSize) out' := by
  have hend : (k + 1) * blockSize = k * blockSize + blockSize := Nat.succ_mul ..
  induction hn : blockSize - offset using Nat.strong_induction_on generalizing offset out with
  | _ n ih =>
  rw [readdirBlock]
  by_cases hlt : offset < blockSize
  · rw [if_pos ⟨by omega, hlt⟩]
    by_cases hcheck : pmfsCheckDirEntry b offset = true
    · have hlen := deLen_pos_of_check hcheck
      have hle := end_le_of_check hcheck
      have hnext := fun out => @ih _ (by omega) (offset + deLen b offset) out hle
        (fun h => absurd h (by omega)) rfl
      rw [dif_pos hcheck, Nat.add_assoc]
      split
      · exact hnext _
      · exact hnext _
    · rw [dif_neg hcheck]
      have hne : offset ≠ 0 := fun h => hcheck (h ▸ hfirst h)
      refine ⟨out, ?_⟩
      rw [alignPos_of_pos, hend]
      · have hdiv : (k * blockSize + offset) / blockSize = k := by
          rw [Nat.mul_comm, Nat.mul_add_div (by decide), Nat.div_eq_of_lt hlt, Nat.add_zero]
        rw [hdiv, hend]
      · rw [Nat.mul_comm, Nat.mul_add_mod, Nat.mod_eq_of_lt hlt]
        omega
  · obtain rfl : offset = blockSize := by omega
    rw [if_neg (by omega), hend]
    exact ⟨out, rfl⟩

/-- The walk from the start of the directory gets to a block that starts with a rejected entry, and
stays there. -/
theorem readdirLoop_stuck (fuel : ℕ) (out : Emitted) {j : ℕ} (hj : blocks[j]?.join = some b)
    (hbad : pmfsCheckDirEntry b 0 = false) (hk : k ≤ j) :
    readdirLoop (fun _ => true) blocks fuel (k * blockSize) 0 out = none := by
  have hlt : j < blocks.length := by
    obtain ⟨hlt, -⟩ := List.getElem?_eq_some_iff.mp (Option.join_eq_some_iff.mp hj)
    exact hlt
  induction fuel generalizing k out with
  | zero => rfl
  | succ fuel ih =>
    have hsize : (k + 1) * blockSize ≤ blocks.length * blockSize :=
      Nat.mul_le_mul_right _ (by omega)
    have hend : (k + 1) * blockSize = k * blockSize + blockSize := Nat.succ_mul ..
    have hpos : k * blockSize < blocks.length * blockSize :=
      Nat.mul_lt_mul_of_pos_right (by omega) (by decide)
    rw [readdirLoop, if_pos hpos, Nat.mul_div_cancel _ (show 0 < blockSize by decide)]
    have hnext : blocks[k]?.join ≠ some b → k + 1 ≤ j := fun h =>
      Nat.lt_of_le_of_ne hk fun hkj => h (hkj ▸ hj)
    split
    · rename_i hhole
      rw [Nat.sub_zero, ← hend]
      exact ih _ (hnext (by simp [hhole]))
    · rename_i c hc
      by_cases hcheck : pmfsCheckDirEntry c 0 = true
      · obtain ⟨out', hleft⟩ := readdirBlock_aligned c out hsize (Nat.zero_le _) fun _ => hcheck
        rw [Nat.add_zero] at hleft
        rw [hleft]
        refine ih _ (hnext fun h => ?_)
        rw [hc] at h
        cases h
        rw [hbad] at hcheck
        cases hcheck
      · -- rounding up is no progress here
        rw [readdirBlock_rejected hpos (by decide) (by simpa using hcheck),
          alignPos_of_zero (Nat.mul_mod_left ..)]
        exact ih _ hk

/-- The walks over the directory end from every position and whatever `dir_emit` takes, and where
`pmfs_readdir` stands at an entry that is rejected, it goes on with the next block. -/
structure WalksEnd (iIno : ℕ) (blocks : List (Option Block)) : Prop where
  readdir : ∀ emit pos, ∃ fuel r, pmfsReaddir emit blocks fuel pos = some r
  skips : ∀ emit pos out b, pos < blocks.length * blockSize →
    blocks[pos / blockSize]?.join = some b → pmfsCheckDirEntry b (pos % blockSize) = false →
    readdirBlock emit b (blocks.length * blockSize) pos (pos % blockSize) out =
      .next ((pos / blockSize + 1) * blockSize) out
  search : ∀ b, some b ∈ blocks → ∀ child, ∃ fuel r, searchLoop b child fuel 0 none = some r
  empty : ∃ fuel r, pmfsEmptyDirLoop iIno blocks fuel = some r

def zeroBlock : Block := fun _ => 0

end Wpmfs.Dir
