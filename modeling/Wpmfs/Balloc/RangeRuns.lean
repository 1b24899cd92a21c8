import Mathlib.Algebra.Order.Ring.Int
import Mathlib.Algebra.Order.Ring.Nat
import Mathlib.Logic.Relation
import Mathlib.Tactic.Tauto
import Wpmfs.Balloc.RangeSpec

/-!
# Runs of the range-list allocator

The list stands for the set of free blocks. In every run of allocations and frees, with node
allocations that fail at will, an allocation takes the lowest aligned run of the set and a free
gives one back; where the call fails nothing changes.
-/

namespace Wpmfs.Balloc

open Ranges

namespace RangeAlloc

/-- The set of free blocks that the list stands for. -/
def Free (s : RangeAlloc) (x : Nat) : Prop := x < s.blockEnd ∧ ¬Used s.blockInuse x

/-- The last block of the first range. -/
def firstHigh (s : RangeAlloc) : Nat := (s.blockInuse.head?.map BlockNode.blockHigh).getD 0

/-- The list is in order with gaps and inside of the device, and the counters fit it. -/
structure Consistent (s : RangeAlloc) : Prop where
  sorted : Sorted s.blockInuse
  inside : ∀ r ∈ s.blockInuse, r.blockHigh < s.blockEnd
  free : s.numFreeBlocks = s.blockEnd - usedTotal s.blockInuse
  nodes : s.numBlocknodeAllocated = s.blockInuse.length

/-- An allocation takes the lowest aligned run above the first range, or fails without a change
because there is none or a node is missing. -/
structure NewBlockSpec (s : RangeAlloc) (btype : BlockType) (nodeOk : Bool) : Prop where
  ok : ∀ b, (s.pmfsNewBlock btype nodeOk).1 = .ok b →
    IsLeast {c | AlignedRun s.Free (pmfsGetNumblocks btype) s.firstHigh c} b ∧
      ∀ x, (s.pmfsNewBlock btype nodeOk).2.Free x ↔
        s.Free x ∧ ¬(b ≤ x ∧ x < b + pmfsGetNumblocks btype)
  error : ∀ e, (s.pmfsNewBlock btype nodeOk).1 = .error e →
    e = .enospc ∧ (s.pmfsNewBlock btype nodeOk).2 = s ∧
      (nodeOk = false ∨ ∀ c, ¬AlignedRun s.Free (pmfsGetNumblocks btype) s.firstHigh c)

/-- A free adds the run to the free blocks, or fails without a change because a node is
missing. -/
def FreeBlockSpec (s : RangeAlloc) (b : Nat) (btype : BlockType) (startHint : Option Nat)
    (nodeOk : Bool) : Prop :=
  ∃ s' hint, s.pmfsFreeBlock b btype startHint nodeOk = some (s', hint) ∧
    ((∀ x, s'.Free x ↔ s.Free x ∨ b ≤ x ∧ x < b + pmfsGetNumblocks btype) ∨
      nodeOk = false ∧ s' = s)

end RangeAlloc

/-- The allocator, the runs handed out and not freed, and the hint that the last free under the
lock left. -/
structure RangeRun where
  sbi : RangeAlloc
  owned : List (Nat × BlockType)
  startHint : Option Nat

namespace RangeRun

open RangeAlloc

/-- The state after `pmfs_init_blockmap` on a device of `blockEnd` blocks. -/
def start (blockEnd initUsedSize : Nat) : RangeRun where
  sbi := RangeAlloc.pmfsInitBlockmap
    { blockStart := 0
      blockEnd := blockEnd
      numFreeBlocks := blockEnd
      numBlocknodeAllocated := 0
      blockInuse := [] } initUsedSize
  owned := []
  startHint := none

/-- A free passes no hint or the one left before. After a free that had no effect the run is
still owned. -/
inductive Step : RangeRun → RangeRun → Prop where
  | newBlock {r : RangeRun} {b : Nat} {sbi : RangeAlloc} {btype : BlockType} {nodeOk : Bool}
      (h : r.sbi.pmfsNewBlock btype nodeOk = (.ok b, sbi)) :
      Step r { sbi := sbi, owned := (b, btype) :: r.owned, startHint := none }
  | newBlockFails {r : RangeRun} {e : Errno} {sbi : RangeAlloc} {btype : BlockType}
      {nodeOk : Bool} (h : r.sbi.pmfsNewBlock btype nodeOk = (.error e, sbi)) :
      Step r { sbi := sbi, owned := r.owned, startHint := none }
  | freeBlock {r : RangeRun} {p : Nat × BlockType} {hint hint' : Option Nat} {sbi : RangeAlloc}
      {nodeOk : Bool} (owned : p ∈ r.owned) (valid : hint = none ∨ hint = r.startHint)
      (h : r.sbi.pmfsFreeBlock p.1 p.2 hint nodeOk = some (sbi, hint')) :
      Step r
        { sbi := sbi
          owned := if sbi = r.sbi then r.owned else r.owned.erase p
          startHint := hint' }

/-- The allocator refines the set of free blocks. -/
structure Refines (r : RangeRun) : Prop where
  consistent : r.sbi.Consistent
  newBlock : ∀ btype nodeOk, r.sbi.NewBlockSpec btype nodeOk
  freeBlock : ∀ p ∈ r.owned, ∀ hint, hint = none ∨ hint = r.startHint →
    ∀ nodeOk, r.sbi.FreeBlockSpec p.1 p.2 hint nodeOk

/-- Two runs do not overlap. -/
def Apart (p q : Nat × BlockType) : Prop :=
  p.1 + pmfsGetNumblocks p.2 ≤ q.1 ∨ q.1 + pmfsGetNumblocks q.2 ≤ p.1

/-- The invariant: block 0 stays used, the runs handed out are used and apart, and the hint is
a node of the list. -/
structure Inv (r : RangeRun) : Prop where
  consistent : r.sbi.Consistent
  first : Used r.sbi.blockInuse 0
  used : ∀ p ∈ r.owned, 0 < p.1 ∧
    ∀ x, p.1 ≤ x → x < p.1 + pmfsGetNumblocks p.2 → Used r.sbi.blockInuse x
  apart : r.owned.Pairwise Apart
  hint : ∀ pos, r.startHint = some pos → pos < r.sbi.blockInuse.length

section Invariant

variable {r r' : RangeRun} {b : Nat} {btype : BlockType} {nodeOk : Bool}

theorem Inv.list_eq (h : Inv r) : ∃ i rest, r.sbi.blockInuse = i :: rest ∧
    r.sbi.firstHigh = i.blockHigh := by
  cases hl : r.sbi.blockInuse with
  | nil =>
    have := h.first
    rw [hl] at this
    exact absurd this covers_nil
  | cons i rest => exact ⟨i, rest, rfl, by simp [firstHigh, hl]⟩

/-- A successful allocation, in terms of the list. -/
theorem Inv.newBlock_ok (h : Inv r) {sbi : RangeAlloc}
    (hnew : r.sbi.pmfsNewBlock btype nodeOk = (.ok b, sbi)) :
    IsLeast {c | AlignedRun r.sbi.Free (pmfsGetNumblocks btype) r.sbi.firstHigh c} b ∧
      Grants r.sbi.blockEnd (pmfsGetNumblocks btype) r.sbi.blockInuse b sbi.blockInuse ∧
      sbi.blockEnd = r.sbi.blockEnd ∧ sbi.Consistent := by
  obtain ⟨i, rest, hl, hfirst⟩ := h.list_eq
  have hn := pmfsGetNumblocks_pos btype
  have hc := h.consistent
  unfold pmfsNewBlock at hnew
  dsimp only at hnew
  split at hnew
  case h_2 => simp at hnew
  case h_1 low list nodes hp =>
    obtain ⟨hb, rfl⟩ := Prod.mk.inj hnew
    obtain rfl := Except.ok.inj hb
    have hs := hc.sorted
    have hin := hc.inside
    have hnodes := hc.nodes
    have hfree := hc.free
    rw [hl] at hp hs hin hnodes hfree
    obtain ⟨hleast, hg, hlen⟩ := placeLoop_found hs hn hin hnodes.ge hp
    have htotal := hg.sorted.total_le_of_lt (hg.below hin)
    have hgl := hg.length
    refine ⟨?_, by rwa [hl], rfl, hg.sorted, hg.below hin, ?_, ?_⟩
    · unfold Free
      rwa [hfirst, hl]
    · dsimp only
      omega
    · dsimp only
      omega

theorem Inv.newBlock_error (h : Inv r) {e : Errno} {sbi : RangeAlloc}
    (hnew : r.sbi.pmfsNewBlock btype nodeOk = (.error e, sbi)) :
    e = .enospc ∧ sbi = r.sbi ∧
      (nodeOk = false ∨
        ∀ c, ¬AlignedRun r.sbi.Free (pmfsGetNumblocks btype) r.sbi.firstHigh c) := by
  obtain ⟨i, rest, hl, hfirst⟩ := h.list_eq
  have hs := h.consistent.sorted
  rw [hl] at hs
  unfold pmfsNewBlock at hnew
  dsimp only at hnew
  split at hnew
  case h_1 => simp at hnew
  case h_2 hne =>
    obtain ⟨he, rfl⟩ := Prod.mk.inj hnew
    refine ⟨(Except.error.inj he).symm, rfl, ?_⟩
    cases hp : placeLoop r.sbi.blockEnd (pmfsGetNumblocks btype) nodeOk
        r.sbi.numBlocknodeAllocated r.sbi.blockInuse with
    | found => exact absurd hp (hne _ _ _)
    | noNode => exact .inl (placeLoop_noNode hp)
    | noFit =>
      refine .inr fun c hc => ?_
      rw [hl] at hp
      unfold Free at hc
      rw [hfirst, hl] at hc
      exact placeLoop_noFit hs (pmfsGetNumblocks_pos btype) hp c hc

theorem Inv.newBlockSpec (h : Inv r) (btype : BlockType) (nodeOk : Bool) :
    r.sbi.NewBlockSpec btype nodeOk := by
  cases hnew : r.sbi.pmfsNewBlock btype nodeOk with
  | mk res sbi =>
    refine ⟨fun b hb => ?_, fun e he => ?_⟩
    · rw [hnew] at hb ⊢
      obtain rfl : res = .ok b := hb
      obtain ⟨hleast, hg, hend, -⟩ := h.newBlock_ok hnew
      refine ⟨hleast, fun x => ?_⟩
      simp only [Free, hend, hg.used, not_or, and_assoc]
    · rw [hnew] at he ⊢
      obtain rfl : res = .error e := he
      exact h.newBlock_error hnew

/-- The range that holds an owned run is looked at, whatever hint is passed. -/
theorem Inv.holder (h : Inv r) {p : Nat × BlockType} (hp : p ∈ r.owned) (hint : Option Nat) :
    ∃ i ∈ r.sbi.blockInuse.drop (r.sbi.startPos p.1 hint),
      i.blockLow ≤ p.1 ∧ p.1 + pmfsGetNumblocks p.2 ≤ i.blockHigh + 1 := by
  obtain ⟨i, hi, hlow, hhigh⟩ := h.consistent.sorted.exists_range
    (pmfsGetNumblocks_pos p.2) (h.used p hp).2
  have hpos := pmfsGetNumblocks_pos p.2
  refine ⟨i, ?_, hlow, hhigh⟩
  have hzero : i ∈ r.sbi.blockInuse.drop 0 := by simpa using hi
  cases hint with
  | none => exact hzero
  | some pos =>
    unfold startPos
    dsimp only
    cases hj : r.sbi.blockInuse[pos]? with
    | none => exact hzero
    | some j =>
      dsimp only
      by_cases hge : p.1 ≥ j.blockLow
      · rw [if_pos hge]
        have hsplit := List.take_append_drop pos r.sbi.blockInuse
        have hs := h.consistent.sorted
        rw [← hsplit] at hi hs
        refine (List.mem_append.1 hi).resolve_left fun hbefore => ?_
        have hjd : j ∈ r.sbi.blockInuse.drop pos :=
          List.mem_of_getElem? (i := 0) (by simpa using hj)
        have := (separated_append.1 hs).2.2 i hbefore j hjd
        omega
      · rw [if_neg hge]
        exact hzero

/-- A free of an owned run, in terms of the list. -/
theorem Inv.freeBlock_cases (h : Inv r) {p : Nat × BlockType} (hp : p ∈ r.owned)
    (hint : Option Nat) (nodeOk : Bool) :
    r.sbi.pmfsFreeBlock p.1 p.2 hint nodeOk = some (r.sbi, hint) ∧ nodeOk = false ∨
      ∃ sbi hint', r.sbi.pmfsFreeBlock p.1 p.2 hint nodeOk = some (sbi, hint') ∧
        Releases (pmfsGetNumblocks p.2) r.sbi.blockInuse p.1 sbi.blockInuse ∧
        sbi.blockEnd = r.sbi.blockEnd ∧ sbi.Consistent ∧
        ∀ pos, hint' = some pos → pos < sbi.blockInuse.length := by
  obtain ⟨i, hi, hlow, hhigh⟩ := h.holder hp hint
  have hn := pmfsGetNumblocks_pos p.2
  have hc := h.consistent
  have hne : r.sbi.blockInuse ≠ [] := by
    rintro hnil
    simp [hnil] at hi
  unfold pmfsFreeBlock
  dsimp only
  rw [if_neg hne]
  generalize r.sbi.startPos p.1 hint = pos at hi ⊢
  have hsplit := List.take_append_drop pos r.sbi.blockInuse
  have hs := hc.sorted
  rw [← hsplit] at hs
  have hpre := (separated_append.1 hs).2.2
  have hlen : (r.sbi.blockInuse.take pos).length + (r.sbi.blockInuse.drop pos).length =
      r.sbi.numBlocknodeAllocated := by
    rw [hc.nodes, ← List.length_append, hsplit]
  obtain ⟨hl, hok⟩ | ⟨l', nodes', hint', hl, hrel, hnodes, hvalid⟩ :=
    carveLoop_spec nodeOk pos (separated_append.1 hs).2.1 hn
      (show (r.sbi.blockInuse.drop pos).length ≤ r.sbi.numBlocknodeAllocated by omega)
      ⟨i, hi, hlow, hhigh⟩
  · exact .inl ⟨by rw [hl], hok⟩
  have hrel := hrel.append hs fun q hq => by
    have := hpre q hq i hi
    omega
  rw [hsplit] at hrel
  have htotal : usedTotal r.sbi.blockInuse ≤ r.sbi.blockEnd :=
    hc.sorted.total_le_of_lt hc.inside
  have hfree := hc.free
  have hr := hrel.length
  rw [hl]
  refine .inr ⟨_, hint', rfl, hrel, rfl, ⟨hrel.sorted, fun q hq => ?_, ?_, ?_⟩, ?_⟩
  · obtain ⟨q', hq', -, hle⟩ := hrel.within q hq
    exact hle.trans_lt (hc.inside q' hq')
  · dsimp only
    omega
  · simp only [List.length_append]
    omega
  · intro pos' hpos'
    have := hvalid pos' hpos'
    simp only [List.length_append]
    have : pos ≤ (r.sbi.blockInuse.take pos).length := by
      have := List.length_pos_of_mem hi
      simp only [List.length_drop] at this
      simp only [List.length_take]
      omega
    omega

theorem Inv.freeBlockSpec (h : Inv r) {p : Nat × BlockType} (hp : p ∈ r.owned)
    (hint : Option Nat) (nodeOk : Bool) : r.sbi.FreeBlockSpec p.1 p.2 hint nodeOk := by
  obtain ⟨hf, hok⟩ | ⟨sbi, hint', hf, hrel, hend, -⟩ := h.freeBlock_cases hp hint nodeOk
  · exact ⟨_, _, hf, .inr ⟨hok, rfl⟩⟩
  · refine ⟨_, _, hf, .inl fun x => ?_⟩
    have hinside : p.1 ≤ x → x < p.1 + pmfsGetNumblocks p.2 → x < r.sbi.blockEnd := by
      intro hx hlt
      obtain ⟨q, hq, -, hle⟩ := (h.used p hp).2 x hx hlt
      exact hle.trans_lt (h.consistent.inside q hq)
    simp only [Free, hend, hrel.used]
    tauto

theorem Inv.refines (h : Inv r) : Refines r :=
  ⟨h.consistent, h.newBlockSpec, fun _ hp hint _ => h.freeBlockSpec hp hint⟩

theorem Inv.newBlock (h : Inv r) {sbi : RangeAlloc}
    (hnew : r.sbi.pmfsNewBlock btype nodeOk = (.ok b, sbi)) :
    Inv { sbi := sbi, owned := (b, btype) :: r.owned, startHint := none } := by
  obtain ⟨⟨hrun, -⟩, hg, -, hc⟩ := h.newBlock_ok hnew
  have hkeep : ∀ x, Used r.sbi.blockInuse x → Used sbi.blockInuse x := fun x hx =>
    (hg.used x).2 (.inl hx)
  have hpos := hrun.2.1
  refine ⟨hc, hkeep 0 h.first, ?_, List.pairwise_cons.2 ⟨fun q hq => ?_, h.apart⟩, by simp⟩
  · intro p hp
    rcases List.mem_cons.1 hp with rfl | hp
    · exact ⟨by dsimp only; omega, fun x hx hlt => (hg.used x).2 (.inr ⟨hx, hlt⟩)⟩
    · exact ⟨(h.used p hp).1, fun x hx hlt => hkeep x ((h.used p hp).2 x hx hlt)⟩
  · by_contra hover
    have := pmfsGetNumblocks_pos q.2
    have := pmfsGetNumblocks_pos btype
    simp only [Apart, not_or, not_le] at hover
    have hq := (h.used q hq).2 (max b q.1) (by omega) (by omega)
    exact hg.free (max b q.1) (by omega) (by omega) hq

theorem Inv.freeBlock (h : Inv r) {p : Nat × BlockType} (hp : p ∈ r.owned)
    {hint hint' : Option Nat} (hvalid : hint = none ∨ hint = r.startHint) {sbi : RangeAlloc}
    (hfree : r.sbi.pmfsFreeBlock p.1 p.2 hint nodeOk = some (sbi, hint')) :
    Inv { sbi := sbi
          owned := if sbi = r.sbi then r.owned else r.owned.erase p
          startHint := hint' } := by
  obtain ⟨hf, -⟩ | ⟨sbi₁, hint₁, hf, hrel, -, hc, hpos⟩ := h.freeBlock_cases hp hint nodeOk
  · obtain ⟨rfl, rfl⟩ : r.sbi = sbi ∧ hint = hint' := by
      simpa using hf.symm.trans hfree
    refine ⟨h.consistent, h.first, by simpa using h.used, by simpa using h.apart, ?_⟩
    rcases hvalid with rfl | rfl
    · simp
    · exact h.hint
  · obtain ⟨rfl, rfl⟩ : sbi₁ = sbi ∧ hint₁ = hint' := by
      simpa using hf.symm.trans hfree
    have hn := pmfsGetNumblocks_pos p.2
    have hne : sbi₁ ≠ r.sbi := by
      rintro rfl
      have := hrel.length
      omega
    rw [if_neg hne]
    have hperm := List.perm_cons_erase hp
    have hapart := (hperm.pairwise_iff fun {a b} (hab : Apart a b) => hab.symm).1 h.apart
    obtain ⟨hp', hapart⟩ := List.pairwise_cons.1 hapart
    refine ⟨hc, (hrel.used 0).2 ⟨h.first, ?_⟩, fun q hq => ?_, hapart, hpos⟩
    · have := (h.used p hp).1
      omega
    · obtain ⟨hq0, hqu⟩ := h.used q (List.mem_of_mem_erase hq)
      refine ⟨hq0, fun x hx hlt => (hrel.used x).2 ⟨hqu x hx hlt, ?_⟩⟩
      have := hp' q hq
      unfold Apart at this
      omega

theorem Inv.step (h : Inv r) (hstep : Step r r') : Inv r' := by
  cases hstep with
  | newBlock hnew => exact h.newBlock hnew
  | newBlockFails hnew =>
    obtain ⟨-, rfl, -⟩ := h.newBlock_error hnew
    exact ⟨h.consistent, h.first, h.used, h.apart, by simp⟩
  | freeBlock hp hvalid hfree => exact h.freeBlock hp hvalid hfree

theorem Inv.run (h : Inv r) (run : Relation.ReflTransGen Step r r') : Inv r' := by
  induction run with
  | refl => exact h
  | tail _ step ih => exact ih.step step

theorem inv_start {blockEnd initUsedSize : Nat} (hpos : 0 < initUsedSize)
    (hfit : reservedBlocks initUsedSize ≤ blockEnd) : Inv (start blockEnd initUsedSize) := by
  have hres : 0 < reservedBlocks initUsedSize := by
    unfold reservedBlocks
    omega
  refine ⟨⟨?_, ?_, ?_, rfl⟩, ?_, by simp [start], by simp [start], by simp [start]⟩
  · exact separated_cons.2 ⟨Nat.zero_le _, by simp, separated_nil⟩
  · simp only [start, pmfsInitBlockmap, List.mem_singleton, forall_eq]
    omega
  · simp only [start, pmfsInitBlockmap, usedTotal_cons, total_nil]
    omega
  · exact used_cons.2 (.inl ⟨le_rfl, Nat.zero_le _⟩)

/-- From `pmfs_init_blockmap` on, in every run the allocator refines the set of free blocks. -/
theorem pmfsNewBlock_refines {blockEnd initUsedSize : Nat} (hpos : 0 < initUsedSize)
    (hfit : reservedBlocks initUsedSize ≤ blockEnd)
    (run : Relation.ReflTransGen Step (start blockEnd initUsedSize) r) : Refines r :=
  ((inv_start hpos hfit).run run).refines

theorem pmfsNewBlock_refines_aligned :
    Refines
      { sbi := ((start 2048 8192).sbi.pmfsNewBlock .b2M true).2
        owned := [(512, .b2M)]
        startHint := none } :=
  @pmfsNewBlock_refines _ 2048 8192 (by decide) (by decide)
    (.single (@Step.newBlock _ 512 _ .b2M true (by decide)))

end Invariant

end RangeRun

end Wpmfs.Balloc
