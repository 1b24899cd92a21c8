import Wpmfs.Balloc.RangeRuns
import Wpmfs.Balloc.Rebuild

/-!
# Rebuilding the range list at mount

`__pmfs_build_blocknode_map` inserts the maximal runs of set bits into the list one after another.
They come in ascending order, so each insertion meets only ranges below the new one: the loop walks
to the last node and either lets it grow or puts a node behind it.
-/

namespace Wpmfs.Balloc

open Ranges

namespace RangeAlloc

/-- How the loop of `pmfs_alloc_insert_blocknode_map` leaves. -/
inductive Inserted where
  | noFit
  | noNode
  | found (list : List BlockNode) (numBlocknodeAllocated : Nat)

/-- One round of the loop of `pmfs_alloc_insert_blocknode_map`, at the node `i` followed by
`rest`. -/
def insertAt (blockEnd newBlockLow newBlockHigh : Nat) (nodeOk : Bool) (nodes : Nat)
    (i : BlockNode) (rest : List BlockNode) : Inserted :=
  let nextBlockLow := match rest with
    | [] => blockEnd
    | nextI :: _ => nextI.blockLow
  let currNode : BlockNode := ⟨newBlockLow, newBlockHigh⟩
  if newBlockHigh ≥ nextBlockLow then .noFit
  else if newBlockLow = i.blockHigh + 1 ∧ newBlockHigh = nextBlockLow - 1 then
    match rest with
    | nextI :: post => .found ({ i with blockHigh := nextI.blockHigh } :: post) (nodes - 1)
    | [] => .found [{ i with blockHigh := newBlockHigh }] nodes
  else if newBlockLow = i.blockHigh + 1 ∧ newBlockHigh < nextBlockLow - 1 then
    .found ({ i with blockHigh := newBlockHigh } :: rest) nodes
  else if newBlockLow > i.blockHigh + 1 ∧ newBlockHigh = nextBlockLow - 1 then
    match rest with
    | nextI :: post => .found (i :: { nextI with blockLow := newBlockLow } :: post) nodes
    | [] => if nodeOk then .found [i, currNode] (nodes + 1) else .noNode
  else if newBlockLow > i.blockHigh + 1 ∧ newBlockHigh < nextBlockLow - 1 then
    if nodeOk then .found (i :: currNode :: rest) (nodes + 1) else .noNode
  else .noFit

/-- The loop of `pmfs_alloc_insert_blocknode_map`. -/
def insertLoop (blockEnd newBlockLow newBlockHigh : Nat) (nodeOk : Bool) (nodes : Nat) :
    List BlockNode → Inserted
  | [] => .noFit
  | i :: rest =>
    match insertAt blockEnd newBlockLow newBlockHigh nodeOk nodes i rest with
    | .noFit =>
      match insertLoop blockEnd newBlockLow newBlockHigh nodeOk nodes rest with
      | .found list nodes => .found (i :: list) nodes
      | out => out
    | out => out

/-- `pmfs_alloc_insert_blocknode_map`. -/
def pmfsAllocInsertBlocknodeMap (s : RangeAlloc) (low high : Nat) (nodeOk : Bool) :
    Except Errno Unit × RangeAlloc :=
  match insertLoop s.blockEnd low high nodeOk s.numBlocknodeAllocated s.blockInuse with
  | .found list nodes =>
    (.ok (), { s with
      blockInuse := list
      numBlocknodeAllocated := nodes
      numFreeBlocks := s.numFreeBlocks - (high - low + 1) })
  | _ => (.error .enospc, s)

/-- The loop of `__pmfs_build_blocknode_map`. `nodeOk low` says whether a node can be allocated
for the run of set bits from `low` on. The second result lists the ranges that could not be
inserted. -/
def buildLoop (bitmap : Nat → Bool) (bsize scale : Nat) (nodeOk : Nat → Bool) (s : RangeAlloc)
    (next : Nat) : RangeAlloc × List (Nat × Nat) :=
  let low := findNext bitmap bsize next
  if h : next ≤ bsize ∧ low < bsize then
    let stop := findNext (!bitmap ·) bsize low
    let range := (low <<< scale, (stop <<< scale) - 1)
    let (r, s) := s.pmfsAllocInsertBlocknodeMap range.1 range.2 (nodeOk low)
    let rejected := match r with
      | .ok _ => []
      | .error _ => [range]
    if stop = bsize then (s, rejected)
    else
      let (s, later) := buildLoop bitmap bsize scale nodeOk s stop
      (s, rejected ++ later)
  else (s, [])
termination_by bsize - next
decreasing_by
  change bsize - findNext (!bitmap ·) bsize (findNext bitmap bsize next) < bsize - next
  have := findNext_bounds (p := bitmap) h.1
  have hlt : findNext bitmap bsize next < bsize := h.2
  have := lt_findNext (p := (!bitmap ·)) hlt (by simp [findNext_found h.1 hlt])
  omega

/-- `__pmfs_build_blocknode_map`. -/
def pmfsBuildBlocknodeMap (bitmap : Nat → Bool) (bsize scale : Nat) (nodeOk : Nat → Bool)
    (s : RangeAlloc) : RangeAlloc × List (Nat × Nat) :=
  buildLoop bitmap bsize scale nodeOk s 1

section Insert

variable {blockEnd low high nodes : Nat} {i : BlockNode} {rest l : List BlockNode}

/-- Behind the last node there is room up to the end of the device. -/
theorem insertAt_last (hs : Sorted [i]) (hlow : i.blockHigh < low) (hle : low ≤ high)
    (hend : high < blockEnd) :
    ∃ l' nodes', insertAt blockEnd low high true nodes i [] = .found l' nodes' ∧
      Grants blockEnd (high + 1 - low) [i] low l' ∧ nodes' + 1 = nodes + l'.length := by
  have hn : 0 < high + 1 - low := by omega
  by_cases hnext : low = i.blockHigh + 1
  · have hgrants := grants_left hs hn
      (show i.blockHigh + 1 + (high + 1 - low) ≤ blockEnd by omega) (by simp)
    have hhigh : i.blockHigh + (high + 1 - low) = high := by omega
    rw [hhigh, ← hnext] at hgrants
    refine ⟨_, _, ?_, hgrants, rfl⟩
    unfold insertAt
    grind
  · have hgrants := grants_middle hs hn (b := low) (by omega)
      (show low + (high + 1 - low) ≤ blockEnd by omega) (by simp)
    have hhigh : low + (high + 1 - low) - 1 = high := by omega
    rw [hhigh] at hgrants
    refine ⟨_, nodes + 1, ?_, hgrants, rfl⟩
    unfold insertAt
    grind

/-- A range above all others is inserted. -/
theorem insertLoop_found (hs : Sorted l) (hne : l ≠ []) (hlow : ∀ r ∈ l, r.blockHigh < low)
    (hle : low ≤ high) (hend : high < blockEnd) :
    ∃ l' nodes', insertLoop blockEnd low high true nodes l = .found l' nodes' ∧
      Grants blockEnd (high + 1 - low) l low l' ∧ nodes' + l.length = nodes + l'.length := by
  induction l with
  | nil => exact absurd rfl hne
  | cons i rest ih =>
    cases rest with
    | nil =>
      obtain ⟨l', nodes', hfound, hgrants, hlen⟩ :=
        @insertAt_last blockEnd low high nodes i hs (hlow i (by simp)) hle hend
      exact ⟨l', nodes', by rw [insertLoop, hfound], hgrants, hlen⟩
    | cons j post =>
      obtain ⟨-, -, hrest⟩ := separated_cons.1 hs
      obtain ⟨hj, -, -⟩ := separated_cons.1 hrest
      have hjlow := hlow j (by simp)
      obtain ⟨l', nodes', hfound, hgrants, hlen⟩ := ih hrest (by simp)
        fun r hr => hlow r (List.mem_cons_of_mem _ hr)
      -- the new range lies above the next node as well
      have hskip : insertAt blockEnd low high true nodes i (j :: post) = .noFit := by
        rw [insertAt]
        exact if_pos (show j.blockLow ≤ high by omega)
      refine ⟨i :: l', nodes', ?_, hgrants.cons hs (hlow i (by simp)), ?_⟩
      · rw [insertLoop, hskip, hfound]
      · grind

end Insert

section Build

variable {bitmap : Nat → Bool} {bsize k next : Nat} {s : RangeAlloc}

/-- The list stands for the `k` blocks of the prefix and the set bits below `next`, its ranges are
in order with gaps, and the two counters fit it. -/
structure Represents (bitmap : Nat → Bool) (k next : Nat) (s : RangeAlloc) : Prop where
  sorted : Sorted s.blockInuse
  used : ∀ x, Used s.blockInuse x ↔ x < k ∨ x < next ∧ bitmap x = true
  free : s.numFreeBlocks = s.blockEnd - usedTotal s.blockInuse
  nodes : s.numBlocknodeAllocated = s.blockInuse.length

/-- A maximal run of set bits is inserted. -/
theorem Represents.insert {low stop : Nat} (h : Represents bitmap k next s) (hk : 1 ≤ k)
    (hlow : k ≤ low) (hnext : next ≤ low) (hlt : low < stop) (hend : stop ≤ s.blockEnd)
    (hclear : ∀ x, next ≤ x → x < low → bitmap x = false)
    (hset : ∀ x, low ≤ x → x < stop → bitmap x = true) :
    ∃ s', s.pmfsAllocInsertBlocknodeMap low (stop - 1) true = (.ok (), s') ∧
      s'.blockEnd = s.blockEnd ∧ Represents bitmap k stop s' := by
  have hne : s.blockInuse ≠ [] := by
    intro hnil
    have hzero := (h.used 0).mpr (.inl hk)
    rw [hnil] at hzero
    exact covers_nil hzero
  have hbelow : ∀ r ∈ s.blockInuse, r.blockHigh < low := by
    intro r hr
    have := (h.used r.blockHigh).mp ⟨r, hr, h.sorted.nonempty r hr, le_rfl⟩
    omega
  obtain ⟨l', nodes', hfound, hgrants, hlen⟩ := @insertLoop_found s.blockEnd low (stop - 1)
    s.numBlocknodeAllocated s.blockInuse h.sorted hne hbelow (by omega) (by omega)
  have hlength : stop - 1 + 1 - low = stop - low := by omega
  rw [hlength] at hgrants
  refine ⟨{ s with
      blockInuse := l'
      numBlocknodeAllocated := nodes'
      numFreeBlocks := s.numFreeBlocks - (stop - 1 - low + 1) }, ?_, rfl, hgrants.sorted,
    fun x => ?_, ?_, ?_⟩
  · rw [pmfsAllocInsertBlocknodeMap, hfound]
  · have hx := hgrants.used x
    have hold := h.used x
    have hbefore := hclear x
    have hinside := hset x
    dsimp only
    grind
  · have htotal := hgrants.length
    have hfree := h.free
    dsimp only
    omega
  · have hnodes := h.nodes
    dsimp only
    omega

/-- The loop goes on with the bits from `next` on. -/
theorem buildLoop_represents (hk : 1 ≤ k) (hsize : s.blockEnd ≤ bsize) (hnext : next ≤ bsize)
    (hbits : ∀ x < bsize, bitmap x = true → k ≤ x ∧ x < s.blockEnd)
    (h : Represents bitmap k next s) :
    ∃ s', buildLoop bitmap bsize 0 (fun _ => true) s next = (s', []) ∧
      s'.blockEnd = s.blockEnd ∧ Represents bitmap k bsize s' := by
  induction hm : bsize - next using Nat.strong_induction_on generalizing next s with
  | _ m ih =>
  have hbounds := findNext_bounds (p := bitmap) hnext
  have hskipped := fun x => findNext_skipped (p := bitmap) (b := x) hnext
  rw [buildLoop]
  generalize hlow : findNext bitmap bsize next = low at *
  by_cases hfound : low < bsize
  · have hset : bitmap low = true := hlow ▸ findNext_found hnext (hlow ▸ hfound)
    have hstop := findNext_bounds (p := (!bitmap ·)) hfound.le
    have hrun := fun x => findNext_skipped (p := (!bitmap ·)) (b := x) hfound.le
    have hlonger := lt_findNext (p := (!bitmap ·)) hfound (by simp [hset])
    generalize findNext (!bitmap ·) bsize low = stop at *
    -- the last block of the run lies on the device
    have hlast := hbits (stop - 1) (by omega) (by simpa using hrun (stop - 1) (by omega) (by omega))
    obtain ⟨s', hinsert, hend, hrep⟩ := h.insert hk (hbits low hfound hset).1 hbounds.1 hlonger
      (by omega) hskipped (by simpa using hrun)
    rw [dif_pos ⟨hnext, hfound⟩]
    simp only [Nat.shiftLeft_zero, hinsert]
    by_cases hdone : stop = bsize
    · rw [if_pos hdone]
      exact ⟨s', rfl, hend, hdone ▸ hrep⟩
    · rw [if_neg hdone]
      obtain ⟨t, hloop, htend, htrep⟩ := ih (bsize - stop) (by omega) (s := s') (by omega)
        hstop.2 (by rwa [hend]) hrep rfl
      exact ⟨t, by rw [hloop, List.nil_append], htend.trans hend, htrep⟩
  · rw [dif_neg fun hand => hfound hand.2]
    refine ⟨s, rfl, rfl, h.sorted, fun x => ?_, h.free, h.nodes⟩
    have hx := h.used x
    have := hskipped x
    grind

/-- After `pmfs_init_blockmap` the list is the reserved prefix. -/
theorem represents_start {blockEnd initUsedSize : Nat} (hk : reservedBlocks initUsedSize = k)
    (hpos : 1 ≤ k) : Represents bitmap k 1 (RangeRun.start blockEnd initUsedSize).sbi := by
  subst hk
  refine ⟨?_, fun x => ?_, ?_, ?_⟩
  all_goals simp only [RangeRun.start, pmfsInitBlockmap]
  · exact separated_cons.2 ⟨by dsimp only; omega, by simp, separated_nil⟩
  · simp
    grind
  · simp
    omega
  · rfl

/-- The range list rebuilt from a bitmap, whose bits all lie behind the reserved prefix and on the
device: no range is rejected, and the list stands for exactly the prefix and the set bits. -/
theorem pmfsBuildBlocknodeMap_exact {blockEnd initUsedSize : Nat}
    (hpos : 1 ≤ reservedBlocks initUsedSize) (hsize : blockEnd ≤ bsize)
    (hbits : ∀ x < bsize, bitmap x = true → reservedBlocks initUsedSize ≤ x ∧ x < blockEnd) :
    ∃ s, pmfsBuildBlocknodeMap bitmap bsize 0 (fun _ => true)
        (RangeRun.start blockEnd initUsedSize).sbi = (s, []) ∧
      s.blockInuse.Pairwise (fun r q => r.blockHigh + 1 < q.blockLow) ∧
      (∀ r ∈ s.blockInuse, r.blockLow ≤ r.blockHigh) ∧
      (∀ x, (∃ r ∈ s.blockInuse, r.blockLow ≤ x ∧ x ≤ r.blockHigh) ↔
        x < reservedBlocks initUsedSize ∨ x < bsize ∧ bitmap x = true) ∧
      s.numFreeBlocks = blockEnd - usedTotal s.blockInuse ∧
      s.numBlocknodeAllocated = s.blockInuse.length := by
  have hstart := @represents_start bitmap _ blockEnd initUsedSize rfl hpos
  generalize hs : (RangeRun.start blockEnd initUsedSize).sbi = s at hstart ⊢
  have hblockEnd : s.blockEnd = blockEnd := by rw [← hs]; rfl
  rcases Nat.eq_zero_or_pos bsize with rfl | hbsize
  · refine ⟨s, ?_, hstart.sorted.apart, hstart.sorted.nonempty, fun x => ?_, ?_, hstart.nodes⟩
    · rw [pmfsBuildBlocknodeMap, buildLoop]
      rfl
    · have := hstart.used x
      unfold Used Covers at this
      grind
    · rw [hstart.free, hblockEnd]
  · obtain ⟨t, hloop, hend, ht⟩ := buildLoop_represents hpos (by omega) hbsize
      (by rwa [hblockEnd]) hstart
    refine ⟨t, hloop, ht.sorted.apart, ht.sorted.nonempty, ht.used, ?_, ht.nodes⟩
    rw [ht.free, hend, hblockEnd]

/-- A device of 12 blocks of which 2 are reserved; blocks 2, 3, 6 and 11 are in use. -/
theorem pmfsBuildBlocknodeMap_exact_twelve :
    ∃ s, pmfsBuildBlocknodeMap (fun x => x ∈ [2, 3, 6, 11]) 16 0 (fun _ => true)
        (RangeRun.start 12 8000).sbi = (s, []) ∧
      s.blockInuse.Pairwise (fun r q => r.blockHigh + 1 < q.blockLow) ∧
      (∀ r ∈ s.blockInuse, r.blockLow ≤ r.blockHigh) ∧
      (∀ x, (∃ r ∈ s.blockInuse, r.blockLow ≤ x ∧ x ≤ r.blockHigh) ↔
        x < reservedBlocks 8000 ∨ x < 16 ∧ decide (x ∈ [2, 3, 6, 11]) = true) ∧
      s.numFreeBlocks = 12 - usedTotal s.blockInuse ∧
      s.numBlocknodeAllocated = s.blockInuse.length :=
  pmfsBuildBlocknodeMap_exact (by decide) (by decide) (by decide)

end Build

end RangeAlloc

end Wpmfs.Balloc
