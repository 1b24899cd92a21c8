import Mathlib.Algebra.Order.Ring.Int
import Mathlib.Algebra.Order.Ring.Nat
import Mathlib.Data.List.Basic
import Mathlib.Data.List.Perm.Basic
import Mathlib.Logic.Relation
import Wpmfs.Balloc.Basic

/-!
# The wear-aware allocator

Blocks never handed out form a range; freed blocks go to the bin that their write counter
selects, newest first, and come back oldest first from the lowest bin. The last bin holds worn
out blocks and is never searched. The list node of a free block lies in the block itself, so
block 0, which `pmfs_get_block` maps to `NULL`, cannot be freed.
-/

namespace Wpmfs.Balloc

/-- The fields of `struct pmfs_sb_info` that this allocator uses, with the page marks.
`num_bins` is the length of `block_bins`. -/
structure BinAlloc where
  blockStart : Nat
  blockEnd : Nat
  numFreeBlocks : Nat
  unusedBlockLow : Nat
  unusedBlockHigh : Nat
  blockBins : List (List Nat)
  pageMarks : Nat → PageMarks

namespace BinAlloc

/-- `wpmfs_get_bin`, for a block whose counter reads `cnt`. -/
def wpmfsGetBin (s : BinAlloc) (power : Nat) (cnt : UInt64) : Int :=
  let targetBin := toInt (cnt.toNat / getIntThresSize power)
  if targetBin < s.blockBins.length then targetBin else s.blockBins.length - 1

/-- `wpmfs_init_blockmap`. -/
def wpmfsInitBlockmap (s : BinAlloc) (initUsedSize : Nat) : BinAlloc :=
  let numUsedBlock := reservedBlocks initUsedSize
  { s with
    unusedBlockLow := s.blockStart + numUsedBlock
    unusedBlockHigh := s.blockEnd
    numFreeBlocks := s.numFreeBlocks - numUsedBlock }

/-- `wpmfs_free_block`: `__wpmfs_free_block` under the lock. The counters read at this call are
`cnter`. `none` is a store outside of `block_bins` or through `NULL`. -/
def wpmfsFreeBlock (s : BinAlloc) (power : Nat) (cnter : Nat → UInt64) (blocknr : Nat)
    (btype : BlockType) : Option BinAlloc :=
  let targetBin := s.wpmfsGetBin power (cnter blocknr)
  if blocknr = 0 ∨ targetBin < 0 then none
  else some { s with
    blockBins := s.blockBins.modify targetBin.toNat (blocknr :: ·)
    numFreeBlocks := s.numFreeBlocks + pmfsGetNumblocks btype
    pageMarks := Function.update s.pageMarks blocknr .inUse }

/-- The loop over the bins: the tail of the first bin that is not empty, and the bins without
it. The last bin is not looked at. -/
def searchBins (numFreeBlocks : Nat) : List (List Nat) → Option (Nat × List (List Nat))
  | [] => none
  | [_] => none
  | bin :: next :: bins =>
    if numFreeBlocks = 0 then none
    else match bin.getLast? with
      | none => (searchBins numFreeBlocks (next :: bins)).map fun (b, bs) => (b, bin :: bs)
      | some blocknr => some (blocknr, bin.dropLast :: next :: bins)

/-- `wpmfs_new_block`: `__wpmfs_new_block` under the lock. The type of the block is only
asserted to be 4K. -/
def wpmfsNewBlock (s : BinAlloc) : Except Errno Nat × BinAlloc :=
  if s.unusedBlockHigh - s.unusedBlockLow ≠ 0 then
    let blocknr := s.unusedBlockLow
    (.ok blocknr, { s with
      unusedBlockLow := s.unusedBlockLow + 1
      numFreeBlocks := s.numFreeBlocks - 1
      pageMarks := Function.update s.pageMarks blocknr .inUse })
  else match searchBins s.numFreeBlocks s.blockBins with
    | some (blocknr, bins) =>
      (.ok blocknr, { s with
        blockBins := bins
        numFreeBlocks := s.numFreeBlocks - 1
        pageMarks := Function.update s.pageMarks blocknr .inUse })
    | none => (.error .enomem, s)

/-! ## Taking from the bins and putting back -/

/-- The bins differ in that the tail `b` of the first bin not empty is gone. -/
structure Takes (bins : List (List Nat)) (b : Nat) (bs : List (List Nat)) : Prop where
  split : ∃ pre bin post, bins = pre ++ (bin ++ [b]) :: post ∧ bs = pre ++ bin :: post ∧
    post ≠ [] ∧ ∀ p ∈ pre, p = []

theorem searchBins_some {n : Nat} {bins bs : List (List Nat)} {b : Nat}
    (h : searchBins n bins = some (b, bs)) : Takes bins b bs := by
  induction bins generalizing bs with
  | nil => simp [searchBins] at h
  | cons bin bins ih =>
    cases bins with
    | nil => simp [searchBins] at h
    | cons next bins =>
      simp only [searchBins] at h
      split at h
      · simp at h
      split at h
      case h_1 none =>
        obtain ⟨⟨b', bs'⟩, hb, he⟩ := Option.map_eq_some_iff.1 h
        obtain ⟨rfl, rfl⟩ := Prod.mk.inj he
        obtain ⟨pre, last, post, hs, rfl, hpost, hpre⟩ := (ih hb).split
        refine ⟨bin :: pre, last, post, by rw [hs]; rfl, rfl, hpost, ?_⟩
        simpa [List.getLast?_eq_none_iff.1 none] using hpre
      case h_2 last some =>
        obtain ⟨rfl, rfl⟩ := Prod.mk.inj (Option.some.inj h)
        refine ⟨[], bin.dropLast, next :: bins, ?_, rfl, by simp, by simp⟩
        simp [List.dropLast_append_getLast? _ some]

theorem searchBins_none {n : Nat} {bins : List (List Nat)} (hn : n ≠ 0)
    (h : searchBins n bins = none) : ∀ bin ∈ bins.dropLast, bin = [] := by
  induction bins with
  | nil => simp
  | cons bin bins ih =>
    cases bins with
    | nil => simp
    | cons next bins =>
      simp only [searchBins, if_neg hn] at h
      split at h
      case h_1 none =>
        have := ih (Option.map_eq_none_iff.1 h)
        simpa [List.getLast?_eq_none_iff.1 none] using this
      case h_2 => simp at h

theorem Takes.perm {bins bs : List (List Nat)} {b : Nat} (h : Takes bins b bs) :
    bins.flatten.Perm (b :: bs.flatten) := by
  obtain ⟨pre, bin, post, rfl, rfl, -, -⟩ := h.split
  simp only [List.flatten_append, List.flatten_cons, List.append_assoc, List.singleton_append]
  rw [← List.append_assoc, ← List.append_assoc]
  exact List.perm_middle

theorem Takes.length_dropLast {bins bs : List (List Nat)} {b : Nat} (h : Takes bins b bs) :
    (bins.dropLast.map List.length).sum = (bs.dropLast.map List.length).sum + 1 := by
  obtain ⟨pre, bin, post, rfl, rfl, hpost, -⟩ := h.split
  rw [List.dropLast_append_of_ne_nil (by simp), List.dropLast_append_of_ne_nil (by simp),
    List.dropLast_cons_of_ne_nil hpost, List.dropLast_cons_of_ne_nil hpost]
  simp only [List.map_append, List.map_cons, List.sum_append, List.sum_cons, List.length_append,
    List.length_singleton]
  omega

theorem modify_flatten_perm {bins : List (List Nat)} {i : Nat} (b : Nat) (h : i < bins.length) :
    (bins.modify i (b :: ·)).flatten.Perm (b :: bins.flatten) := by
  induction bins generalizing i with
  | nil => simp at h
  | cons bin bins ih =>
    cases i with
    | zero => simp
    | succ i =>
      simp only [List.modify_succ_cons, List.flatten_cons]
      exact ((ih (by simpa using h)).append_left bin).trans List.perm_middle

theorem wpmfsGetBin_lt {s : BinAlloc} (hb : s.blockBins ≠ []) (power : Nat) (cnt : UInt64) :
    (s.wpmfsGetBin power cnt).toNat < s.blockBins.length := by
  have := List.length_pos_iff.2 hb
  unfold wpmfsGetBin
  dsimp only
  split <;> omega

/-- The bin is an index of the array unless the quotient is negative as an `int`. -/
theorem wpmfsGetBin_nonneg {s : BinAlloc} (hb : s.blockBins ≠ []) {power : Nat} {cnt : UInt64} :
    0 ≤ s.wpmfsGetBin power cnt ↔ 0 ≤ toInt (cnt.toNat / getIntThresSize power) := by
  have := List.length_pos_iff.2 hb
  unfold wpmfsGetBin
  dsimp only
  split <;> omega

/-- A free that stores inside of `block_bins`. -/
theorem wpmfsFreeBlock_eq {s : BinAlloc} {power : Nat} {cnter : Nat → UInt64} {blocknr : Nat}
    (h0 : blocknr ≠ 0) (hbin : 0 ≤ s.wpmfsGetBin power (cnter blocknr)) (btype : BlockType) :
    s.wpmfsFreeBlock power cnter blocknr btype = some { s with
      blockBins := s.blockBins.modify (s.wpmfsGetBin power (cnter blocknr)).toNat (blocknr :: ·)
      numFreeBlocks := s.numFreeBlocks + pmfsGetNumblocks btype
      pageMarks := Function.update s.pageMarks blocknr .inUse } :=
  if_neg (by omega)

/-- A quotient that is negative as an `int` passes the comparison with `num_bins`. -/
theorem wpmfsFreeBlock_eq_none {s : BinAlloc} {power : Nat} {cnter : Nat → UInt64} {blocknr : Nat}
    (hb : s.blockBins ≠ [])
    (hneg : toInt ((cnter blocknr).toNat / getIntThresSize power) < 0) (btype : BlockType) :
    s.wpmfsFreeBlock power cnter blocknr btype = none := by
  have := (wpmfsGetBin_nonneg hb).not.2 (Int.not_le.2 hneg)
  exact if_pos (.inr (by omega))

end BinAlloc

/-! ## Runs -/

/-- The allocator, the blocks that are allocated, and when each block was last freed. -/
structure BinRun where
  sbi : BinAlloc
  allocated : List Nat
  clock : Nat
  freedAt : Nat → Nat

/-- A call of the allocator, with the counters as they are at that moment. -/
inductive BinCall where
  | newBlock (btype : BlockType)
  | freeBlock (blocknr : Nat) (btype : BlockType) (cnter : Nat → UInt64)

/-- The call is for a 4 KB block. -/
def BinCall.Small : BinCall → Prop
  | .newBlock btype => btype = .b4K
  | .freeBlock _ btype _ => btype = .b4K

namespace BinRun

/-- Only an allocated block is freed. -/
def Legal (r : BinRun) : BinCall → Prop
  | .newBlock _ => True
  | .freeBlock blocknr _ _ => blocknr ∈ r.allocated

/-- One call; `none` is a bad store. -/
def call (power : Nat) (r : BinRun) : BinCall → Option BinRun
  | .newBlock _ =>
    match r.sbi.wpmfsNewBlock with
    | (.ok blocknr, sbi) => some { r with sbi := sbi, allocated := blocknr :: r.allocated }
    | (.error _, sbi) => some { r with sbi := sbi }
  | .freeBlock blocknr btype cnter =>
    (r.sbi.wpmfsFreeBlock power cnter blocknr btype).map fun sbi =>
      { sbi := sbi
        allocated := r.allocated.erase blocknr
        clock := r.clock + 1
        freedAt := Function.update r.freedAt blocknr r.clock }

/-- Calls that meet the condition `ok`; no step leads on from a bad store. -/
inductive Step (power : Nat) (ok : BinCall → Prop) : Option BinRun → Option BinRun → Prop where
  | call {r : BinRun} {c : BinCall} (legal : r.Legal c) (meets : ok c) :
      Step power ok (some r) (r.call power c)

/-- A free of a 4 KB block whose counter, divided by the threshold, is not negative as an
`int`. -/
def InRange (power : Nat) : BinCall → Prop
  | .newBlock _ => True
  | .freeBlock blocknr btype cnter =>
    btype = .b4K ∧ 0 ≤ toInt ((cnter blocknr).toNat / getIntThresSize power)

/-- The state after `wpmfs_init_blockmap` on a device of `blockEnd` blocks. -/
def start (blockEnd numBins initUsedSize : Nat) (pageMarks : Nat → PageMarks) : BinRun where
  sbi := BinAlloc.wpmfsInitBlockmap
    { blockStart := 0
      blockEnd := blockEnd
      numFreeBlocks := blockEnd
      unusedBlockLow := 0
      unusedBlockHigh := 0
      blockBins := List.replicate numBins []
      pageMarks := pageMarks } initUsedSize
  allocated := []
  clock := 0
  freedAt := fun _ => 0

/-- The blocks past the reserved prefix are the never used ones, those in the bins and the
allocated ones, each once, and the free ones are counted. -/
structure Partitioned (reserved blockEnd : Nat) (r : BinRun) : Prop where
  blocks : (List.range' r.sbi.unusedBlockLow (r.sbi.unusedBlockHigh - r.sbi.unusedBlockLow) ++
    r.sbi.blockBins.flatten ++ r.allocated).Perm
      (List.range' reserved (blockEnd - reserved))
  counted : r.sbi.numFreeBlocks = (r.sbi.unusedBlockHigh - r.sbi.unusedBlockLow) +
    (r.sbi.blockBins.map List.length).sum
  range : r.sbi.unusedBlockLow ≤ r.sbi.unusedBlockHigh

/-- What the next allocation returns, and when it fails. -/
structure OldestFirst (r : BinRun) : Prop where
  unused : r.sbi.unusedBlockLow < r.sbi.unusedBlockHigh → ∃ b, r.sbi.wpmfsNewBlock.1 = .ok b ∧
    r.sbi.unusedBlockLow ≤ b ∧ b < r.sbi.unusedBlockHigh
  oldest : r.sbi.unusedBlockHigh ≤ r.sbi.unusedBlockLow →
    ∀ b, r.sbi.wpmfsNewBlock.1 = .ok b → ∃ k bin, k + 1 < r.sbi.blockBins.length ∧
      r.sbi.blockBins[k]? = some bin ∧ (∀ j < k, r.sbi.blockBins[j]? = some []) ∧
      b ∈ bin ∧ ∀ c ∈ bin, r.freedAt b ≤ r.freedAt c
  fails : ∀ e, r.sbi.wpmfsNewBlock.1 = .error e →
    r.sbi.unusedBlockHigh ≤ r.sbi.unusedBlockLow ∧
    (∀ bin ∈ r.sbi.blockBins.dropLast, bin = []) ∧ r.sbi.wpmfsNewBlock.2 = r.sbi

/-- The invariant: the partition, and every bin lists its blocks newest first. -/
structure Inv (reserved blockEnd : Nat) (r : BinRun) : Prop extends
    Partitioned reserved blockEnd r where
  bins : r.sbi.blockBins ≠ []
  positive : 0 < reserved
  newestFirst : ∀ bin ∈ r.sbi.blockBins, bin.Pairwise fun b c => r.freedAt c < r.freedAt b
  past : ∀ b ∈ r.sbi.blockBins.flatten, r.freedAt b < r.clock

section Invariant

variable {power reserved blockEnd : Nat} {r r' : BinRun}

theorem Inv.nodup (h : Inv reserved blockEnd r) :
    (r.sbi.blockBins.flatten ++ r.allocated).Nodup := by
  have := h.blocks.nodup_iff.2 List.nodup_range'
  rw [List.append_assoc] at this
  exact (List.nodup_append.1 this).2.1

theorem Inv.notMem_bins {b : Nat} (h : Inv reserved blockEnd r) (hb : b ∈ r.allocated) :
    b ∉ r.sbi.blockBins.flatten := fun hm =>
  (List.nodup_append.1 h.nodup).2.2 b hm b hb rfl

theorem Inv.pos_of_mem {b : Nat} (h : Inv reserved blockEnd r) (hb : b ∈ r.allocated) : b ≠ 0 := by
  have := h.blocks.mem_iff.1 (List.mem_append_right _ hb)
  have := h.positive
  grind

theorem mem_modify_cons {bins : List (List Nat)} {i b : Nat} {bin : List Nat}
    (h : bin ∈ bins.modify i (b :: ·)) : bin ∈ bins ∨ ∃ old ∈ bins, bin = b :: old := by
  obtain ⟨j, hj, rfl⟩ := List.mem_iff_getElem.1 h
  rw [List.getElem_modify]
  split <;> grind

theorem Inv.freeBlock {blocknr : Nat} {btype : BlockType} {cnter : Nat → UInt64}
    (h : Inv reserved blockEnd r) (legal : blocknr ∈ r.allocated)
    (meets : InRange power (.freeBlock blocknr btype cnter)) :
    ∃ r', r.call power (.freeBlock blocknr btype cnter) = some r' ∧ Inv reserved blockEnd r' := by
  obtain ⟨rfl, hbin⟩ := meets
  have hbin := (BinAlloc.wpmfsGetBin_nonneg h.bins).2 hbin
  have hlt := BinAlloc.wpmfsGetBin_lt h.bins power (cnter blocknr)
  have hout := h.notMem_bins legal
  rw [call, BinAlloc.wpmfsFreeBlock_eq (h.pos_of_mem legal) hbin, Option.map_some]
  generalize (r.sbi.wpmfsGetBin power (cnter blocknr)).toNat = i at hlt
  have hperm := BinAlloc.modify_flatten_perm blocknr hlt
  refine ⟨_, rfl, ⟨?_, ?_, h.range⟩, ?_, h.positive, ?_, ?_⟩
  · refine List.Perm.trans ?_ h.blocks
    simp only [List.append_assoc]
    refine List.Perm.append_left _ ((hperm.append_right _).trans ?_)
    exact List.perm_middle.symm.trans
      (List.Perm.append_left _ (List.perm_cons_erase legal).symm)
  · have := hperm.length_eq
    simp only [List.length_flatten, List.length_cons] at this
    have := h.counted
    simp only [pmfsGetNumblocks]
    omega
  · simpa [← List.length_pos_iff] using List.length_pos_iff.2 h.bins
  · intro bin hm
    have hkeep : ∀ c ∈ r.sbi.blockBins.flatten,
        Function.update r.freedAt blocknr r.clock c = r.freedAt c := by
      intro c hc
      exact Function.update_of_ne (by rintro rfl; exact hout hc) _ _
    have hsorted : ∀ old ∈ r.sbi.blockBins, old.Pairwise fun b c =>
        Function.update r.freedAt blocknr r.clock c <
          Function.update r.freedAt blocknr r.clock b := by
      intro old hm
      refine (h.newestFirst old hm).imp_of_mem fun {b c} hb hc hlt => ?_
      have hb := hkeep b (List.mem_flatten_of_mem hm hb)
      have hc := hkeep c (List.mem_flatten_of_mem hm hc)
      omega
    obtain hm | ⟨old, hold, rfl⟩ := mem_modify_cons hm
    · exact hsorted bin hm
    · refine List.pairwise_cons.2 ⟨fun c hc => ?_, hsorted old hold⟩
      have hc := List.mem_flatten_of_mem hold hc
      have := h.past c hc
      rw [← hkeep c hc] at this
      simpa using this
  · intro c hc
    have hc := hperm.mem_iff.1 hc
    change Function.update r.freedAt blocknr r.clock c < r.clock + 1
    by_cases hcb : c = blocknr
    · simp [hcb]
    · have hc : c ∈ r.sbi.blockBins.flatten := by simpa [hcb] using hc
      rw [Function.update_of_ne hcb]
      exact Nat.lt_succ_of_lt (h.past c hc)

/-- The free count is not 0 while a bin holds a block. -/
theorem Inv.numFree_ne_zero (h : Inv reserved blockEnd r) {bin : List Nat}
    (hm : bin ∈ r.sbi.blockBins) (hne : bin ≠ []) : r.sbi.numFreeBlocks ≠ 0 := by
  obtain ⟨b, hb⟩ := List.exists_mem_of_ne_nil bin hne
  have hpos := List.length_pos_of_mem (List.mem_flatten_of_mem hm hb)
  rw [List.length_flatten] at hpos
  have := h.counted
  omega

theorem Inv.newBlock (h : Inv reserved blockEnd r) (btype : BlockType) :
    ∃ r', r.call power (.newBlock btype) = some r' ∧ Inv reserved blockEnd r' := by
  simp only [call, BinAlloc.wpmfsNewBlock]
  split
  case h_1 blocknr sbi heq =>
    split at heq
    case isTrue hun =>
      obtain ⟨hb, rfl⟩ := Prod.mk.inj heq
      obtain rfl := Except.ok.inj hb
      refine ⟨_, rfl, ⟨?_, ?_, by dsimp only; omega⟩, h.bins, h.positive, h.newestFirst, h.past⟩
      · refine List.Perm.trans ?_ h.blocks
        have hr : List.range' r.sbi.unusedBlockLow (r.sbi.unusedBlockHigh - r.sbi.unusedBlockLow)
            = r.sbi.unusedBlockLow :: List.range' (r.sbi.unusedBlockLow + 1)
              (r.sbi.unusedBlockHigh - (r.sbi.unusedBlockLow + 1)) := by
          rw [← List.range'_succ]
          congr 1
          omega
        rw [hr]
        exact List.perm_middle
      · have := h.counted
        dsimp only
        omega
    case isFalse hun =>
      split at heq
      case h_1 b bins hs =>
        obtain ⟨hb, rfl⟩ := Prod.mk.inj heq
        obtain rfl := Except.ok.inj hb
        have ht := BinAlloc.searchBins_some hs
        have hperm := ht.perm
        have hsub : ∀ c, c ∈ bins.flatten → c ∈ r.sbi.blockBins.flatten := fun c hc =>
          hperm.mem_iff.2 (List.mem_cons_of_mem _ hc)
        refine ⟨_, rfl, ⟨?_, ?_, h.range⟩, ?_, h.positive, ?_, fun c hc => h.past c (hsub c hc)⟩
        · refine List.Perm.trans ?_ h.blocks
          simp only [List.append_assoc]
          exact List.Perm.append_left _ (List.perm_middle.trans (hperm.symm.append_right _))
        · have := hperm.length_eq
          simp only [List.length_flatten, List.length_cons] at this
          have := h.counted
          dsimp only
          omega
        · obtain ⟨pre, bin, post, -, rfl, -, -⟩ := ht.split
          simp
        · obtain ⟨pre, bin, post, hsplit, rfl, -, -⟩ := ht.split
          intro c hc
          have hold := h.newestFirst
          rw [hsplit] at hold
          simp only [List.mem_append, List.mem_cons] at hc hold
          rcases hc with hc | rfl | hc
          · exact hold c (.inl hc)
          · exact (List.pairwise_append.1 (hold _ (.inr (.inl rfl)))).1
          · exact hold c (.inr (.inr hc))
      case h_2 => simp at heq
  case h_2 e sbi heq =>
    have : sbi = r.sbi := by grind
    exact ⟨r, by rw [this], h⟩

theorem Inv.step {c : BinCall} (h : Inv reserved blockEnd r) (legal : r.Legal c)
    (meets : InRange power c) : ∃ r', r.call power c = some r' ∧ Inv reserved blockEnd r' := by
  cases c with
  | newBlock btype => exact h.newBlock btype
  | freeBlock blocknr btype cnter => exact h.freeBlock legal meets

/-- The condition is exact: a legal call keeps the invariant only if it meets it. -/
theorem Inv.step_iff {c : BinCall} (h : Inv reserved blockEnd r) (legal : r.Legal c) :
    (∃ r', r.call power c = some r' ∧ Inv reserved blockEnd r') ↔ InRange power c := by
  refine ⟨fun ⟨r', hr, h'⟩ => ?_, h.step legal⟩
  cases c with
  | newBlock btype => trivial
  | freeBlock blocknr btype cnter =>
    by_cases hneg : toInt ((cnter blocknr).toNat / getIntThresSize power) < 0
    · rw [call, BinAlloc.wpmfsFreeBlock_eq_none h.bins hneg] at hr
      simp at hr
    have hbin := (BinAlloc.wpmfsGetBin_nonneg h.bins).2 (Int.not_lt.1 hneg)
    have hlt := BinAlloc.wpmfsGetBin_lt h.bins power (cnter blocknr)
    rw [call, BinAlloc.wpmfsFreeBlock_eq (h.pos_of_mem legal) hbin, Option.map_some,
      Option.some.injEq] at hr
    generalize (r.sbi.wpmfsGetBin power (cnter blocknr)).toNat = i at hlt hr
    subst hr
    have hlen := (BinAlloc.modify_flatten_perm blocknr hlt).length_eq
    have hnew := h'.counted
    have hold := h.counted
    simp only [List.length_flatten, List.length_cons] at hlen hnew
    refine ⟨?_, Int.not_lt.1 hneg⟩
    have hone : pmfsGetNumblocks btype = 1 := by omega
    cases btype with
    | b4K => rfl
    | b2M => simp [pmfsGetNumblocks] at hone
    | b1G => simp [pmfsGetNumblocks] at hone

theorem Inv.oldestFirst (h : Inv reserved blockEnd r) : OldestFirst r := by
  refine ⟨fun hun => ⟨r.sbi.unusedBlockLow, ?_, le_rfl, hun⟩, fun hun b hb => ?_, fun e he => ?_⟩
  · rw [BinAlloc.wpmfsNewBlock, if_pos (by omega)]
  · rw [BinAlloc.wpmfsNewBlock, if_neg (by omega)] at hb
    split at hb
    case h_2 => simp at hb
    case h_1 b' bins hs =>
      obtain rfl := Except.ok.inj hb
      obtain ⟨pre, bin, post, hsplit, -, hpost, hpre⟩ := (BinAlloc.searchBins_some hs).split
      refine ⟨pre.length, bin ++ [b'], ?_, by simp [hsplit], fun j hj => ?_, by simp, ?_⟩
      · have := List.length_pos_iff.2 hpost
        simp only [hsplit, List.length_append, List.length_cons]
        omega
      · rw [hsplit, List.getElem?_append_left hj, List.getElem?_eq_getElem hj]
        exact congrArg some (hpre _ (List.getElem_mem hj))
      · have := h.newestFirst (bin ++ [b']) (by simp [hsplit])
        intro c hc
        obtain hc | hc := List.mem_append.1 hc
        · exact Nat.le_of_lt ((List.pairwise_append.1 this).2.2 c hc b' (by simp))
        · rw [List.mem_singleton.1 hc]
  · rw [BinAlloc.wpmfsNewBlock] at he ⊢
    split at he
    · simp at he
    case isFalse hun =>
      split at he
      · simp at he
      case h_2 hs =>
        refine ⟨by omega, fun bin hm => ?_, by simp only [if_neg hun]⟩
        by_contra hne
        have h0 := h.numFree_ne_zero (List.dropLast_subset _ hm) hne
        exact hne (BinAlloc.searchBins_none h0 hs bin hm)

/-- The invariant holds after `wpmfs_init_blockmap`. -/
theorem inv_start {numBins initUsedSize : Nat} (marks : Nat → PageMarks)
    (hbins : 0 < numBins) (hpos : 0 < initUsedSize)
    (hfit : reservedBlocks initUsedSize ≤ blockEnd) :
    Inv (reservedBlocks initUsedSize) blockEnd (start blockEnd numBins initUsedSize marks) := by
  unfold reservedBlocks at hfit ⊢
  have hflat : (List.replicate numBins ([] : List Nat)).flatten = [] := by simp
  refine ⟨⟨?_, ?_, ?_⟩, ?_, ?_, ?_, ?_⟩
  · simp [start, BinAlloc.wpmfsInitBlockmap, reservedBlocks]
  · simp [start, BinAlloc.wpmfsInitBlockmap, reservedBlocks]
  · simp [start, BinAlloc.wpmfsInitBlockmap, reservedBlocks]
    omega
  · simpa [start, BinAlloc.wpmfsInitBlockmap, reservedBlocks] using Nat.pos_iff_ne_zero.1 hbins
  · omega
  · intro bin hm
    rw [(List.mem_replicate.1 hm).2]
    exact List.Pairwise.nil
  · intro b hb
    simp [start, BinAlloc.wpmfsInitBlockmap, reservedBlocks] at hb

end Invariant

section Runs

variable {power blockEnd numBins initUsedSize : Nat} {marks : Nat → PageMarks}

theorem Inv.run {reserved : Nat} {r : BinRun} {o : Option BinRun} (h : Inv reserved blockEnd r)
    (run : Relation.ReflTransGen (Step power (InRange power)) (some r) o) :
    ∃ r', o = some r' ∧ Inv reserved blockEnd r' := by
  induction run with
  | refl => exact ⟨r, rfl, h⟩
  | tail _ step ih =>
    obtain ⟨r', rfl, h'⟩ := ih
    cases step with
    | call legal meets => exact h'.step legal meets

/-- In every run whose frees are of 4 KB blocks with a counter in range, no store goes astray,
the blocks stay partitioned and counted, and blocks come back oldest first. -/
theorem wpmfsNewBlock_partitioned (hbins : 0 < numBins) (hpos : 0 < initUsedSize)
    (hfit : reservedBlocks initUsedSize ≤ blockEnd) {o : Option BinRun}
    (run : Relation.ReflTransGen (Step power (InRange power))
      (some (start blockEnd numBins initUsedSize marks)) o) :
    ∃ r, o = some r ∧ Partitioned (reservedBlocks initUsedSize) blockEnd r ∧ OldestFirst r := by
  obtain ⟨r, rfl, h⟩ := Inv.run (inv_start marks hbins hpos hfit) run
  exact ⟨r, rfl, h.toPartitioned, h.oldestFirst⟩

theorem wpmfsNewBlock_partitioned_once :
    ∃ r, (start 3 2 4096 (fun _ => {})).call 17 (.newBlock .b4K) = some r ∧
      Partitioned 1 3 r ∧ OldestFirst r :=
  wpmfsNewBlock_partitioned (by decide) (by decide) (by decide)
    (.single (.call (c := .newBlock .b4K) trivial trivial))

/-- Not so for all counters: a block freed with a counter of `2 ^ 48` under the default threshold
is stored in front of `block_bins`. -/
theorem wpmfsFreeBlock_astray :
    ¬∀ o, Relation.ReflTransGen (Step 17 BinCall.Small) (some (start 3 2 4096 fun _ => {})) o →
      ∃ r, o = some r ∧ Partitioned (reservedBlocks 4096) 3 r ∧ OldestFirst r := by
  intro h
  let r := start 3 2 4096 fun _ => {}
  let t : BinRun := { r with sbi := r.sbi.wpmfsNewBlock.2, allocated := [1] }
  have alloc : Step 17 BinCall.Small (some r) (some t) :=
    .call (c := .newBlock .b4K) trivial rfl
  have stray : t.call 17 (.freeBlock 1 .b4K fun _ => 2 ^ 48) = none := by
    rw [call, BinAlloc.wpmfsFreeBlock_eq_none (by decide) (by decide), Option.map_none]
  have free : Step 17 BinCall.Small (some t) none :=
    stray ▸ .call (c := .freeBlock 1 .b4K fun _ => 2 ^ 48) (List.mem_singleton.2 rfl) rfl
  obtain ⟨r', hr, -⟩ := h none (.tail (.single alloc) free)
  cases hr

end Runs

end BinRun

end Wpmfs.Balloc
