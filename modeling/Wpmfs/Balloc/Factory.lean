import Wpmfs.Balloc.Bins
import Wpmfs.Balloc.RangeRuns

/-!
# The allocator of a mount

The mount option `alloc` selects one of the two allocators. The rest of the file system calls them
through `Allocator` and sees the same behaviour: a block that is handed out was free, a block that
is given back is free. They differ in the error code of a failed call and in the page marks, which
only the wear-aware allocator sets.
-/

namespace Wpmfs.Balloc

/-- What a call finds outside of the file system: whether the kernel has memory for a range node,
and the write counters. -/
structure Surroundings where
  nodeOk : Bool
  power : ℕ
  cnter : ℕ → UInt64

/-- The selected allocator with the marks of the pages. -/
inductive Factory where
  | wear (r : BinRun)
  | ranges (r : RangeRun) (pageMarks : ℕ → PageMarks)

namespace Factory

variable {a a' : Factory} {o : Surroundings} {b x lo hi : ℕ} {e : Errno} {m : PageMarks}

/-- `Allocator.pmfs_new_block` for a 4K block. -/
def newBlock (o : Surroundings) : Factory → Except Errno ℕ × Factory
  | wear r =>
    match r.sbi.wpmfsNewBlock with
    | (.ok b, sbi) => (.ok b, .wear { r with sbi := sbi, allocated := b :: r.allocated })
    | (.error e, sbi) => (.error e, .wear { r with sbi := sbi })
  | ranges r pageMarks =>
    match r.sbi.pmfsNewBlock .b4K o.nodeOk with
    | (.ok b, sbi) => (.ok b, .ranges ⟨sbi, (b, .b4K) :: r.owned, none⟩ pageMarks)
    | (.error e, sbi) => (.error e, .ranges ⟨sbi, r.owned, none⟩ pageMarks)

/-- `Allocator.pmfs_free_block` of a 4K block. -/
def freeBlock (o : Surroundings) (b : ℕ) : Factory → Option Factory
  | wear r => (r.call o.power (.freeBlock b .b4K o.cnter)).map .wear
  | ranges r pageMarks =>
    (r.sbi.pmfsFreeBlock b .b4K none o.nodeOk).map fun (sbi, hint) =>
      .ranges
        { sbi := sbi
          owned := if sbi = r.sbi then r.owned else r.owned.erase (b, .b4K)
          startHint := hint } pageMarks

/-- `wpmfs_page_marks`. -/
def pageMarks : Factory → ℕ → PageMarks
  | wear r => r.sbi.pageMarks
  | ranges _ pageMarks => pageMarks

/-- `wpmfs_mark_page`. -/
def markPage (a : Factory) (b : ℕ) (m : PageMarks) : Factory :=
  match a with
  | wear r => wear { r with sbi := { r.sbi with pageMarks := Function.update r.sbi.pageMarks b m } }
  | ranges r pageMarks => ranges r (Function.update pageMarks b m)

/-- The marks of the page of a block that the allocator takes or gives. -/
def markOf (a : Factory) (b : ℕ) : PageMarks :=
  match a with
  | wear _ => .inUse
  | ranges _ pageMarks => pageMarks b

/-- The blocks that are handed out. -/
def InUse : Factory → ℕ → Prop
  | wear r, b => b ∈ r.allocated
  | ranges r _, b => (b, .b4K) ∈ r.owned

/-- The blocks that may be handed out. -/
def Free : Factory → ℕ → Prop
  | wear r, b => r.sbi.unusedBlockLow ≤ b ∧ b < r.sbi.unusedBlockHigh ∨
      b ∈ r.sbi.blockBins.flatten
  | ranges r _, b => r.sbi.Free b

/-- The allocator has the blocks from `lo` on, before `hi`. -/
def Inv (lo hi : ℕ) : Factory → Prop
  | wear r => BinRun.Inv lo hi r
  | ranges r _ => RangeRun.Inv r ∧ r.sbi.blockEnd = hi ∧
      (∀ x < lo, RangeAlloc.Used r.sbi.blockInuse x) ∧ ∀ p ∈ r.owned, p.2 = .b4K ∧ lo ≤ p.1

/-- `alloc=0`. -/
def isWear : Factory → Bool
  | wear _ => true
  | ranges _ _ => false

/-- Nothing changes that a caller can see. -/
structure Same (lo hi : ℕ) (a a' : Factory) : Prop where
  inv : a'.Inv lo hi
  free : ∀ x, a'.Free x ↔ a.Free x
  inUse : ∀ x, a'.InUse x ↔ a.InUse x
  marks : a'.pageMarks = a.pageMarks
  kind : a'.isWear = a.isWear

/-- The block `b` was free and is handed out. -/
structure Handed (lo hi : ℕ) (a : Factory) (b : ℕ) (a' : Factory) : Prop where
  inv : a'.Inv lo hi
  lower : lo ≤ b
  upper : b < hi
  was : a.Free b
  free : ∀ x, a'.Free x ↔ a.Free x ∧ x ≠ b
  inUse : ∀ x, a'.InUse x ↔ a.InUse x ∨ x = b
  marks : a'.pageMarks = Function.update a.pageMarks b (a.markOf b)
  kind : a'.isWear = a.isWear

/-- The block `b` is given back. -/
structure Returned (lo hi : ℕ) (a : Factory) (b : ℕ) (a' : Factory) : Prop where
  inv : a'.Inv lo hi
  free : ∀ x, a'.Free x ↔ a.Free x ∨ x = b
  inUse : ∀ x, a'.InUse x ↔ a.InUse x ∧ x ≠ b
  marks : a'.pageMarks = Function.update a.pageMarks b (a.markOf b)
  kind : a'.isWear = a.isWear

/-! ## The wear-aware allocator -/

section Wear

variable {r : BinRun}

theorem mem_range'_iff {n : ℕ} : x ∈ List.range' lo (n - lo) ↔ lo ≤ x ∧ x < n := by
  rw [List.mem_range'_1]
  omega

/-- Each block from `lo` on is either free or handed out. -/
theorem wear_disjoint (h : BinRun.Inv lo hi r) (hb : (wear r).Free b) : ¬(wear r).InUse b := by
  have hnodup := h.blocks.nodup_iff.mpr List.nodup_range'
  have hapart := (List.nodup_append.mp hnodup).2.2
  refine fun hin => hapart b (List.mem_append.mpr ?_) b hin rfl
  exact hb.imp (mem_range'_iff.mpr) id

theorem wear_range (h : BinRun.Inv lo hi r) (hb : (wear r).Free b ∨ (wear r).InUse b) :
    lo ≤ b ∧ b < hi := by
  refine mem_range'_iff.mp (h.blocks.mem_iff.mp ?_)
  rw [List.mem_append, List.mem_append]
  exact hb.imp (Or.imp mem_range'_iff.mpr id) id

theorem wear_unused_notMem (h : BinRun.Inv lo hi r) (hlow : r.sbi.unusedBlockLow ≤ b)
    (hhigh : b < r.sbi.unusedBlockHigh) : b ∉ r.sbi.blockBins.flatten := by
  have hnodup := h.blocks.nodup_iff.mpr List.nodup_range'
  have hapart := (List.nodup_append.mp (List.nodup_append.mp hnodup).1).2.2
  exact fun hb => hapart b (mem_range'_iff.mpr ⟨hlow, hhigh⟩) b hb rfl

/-- The two ways in which `wpmfs_new_block` succeeds. -/
theorem wpmfsNewBlock_cases {s sbi : BinAlloc} (hnew : s.wpmfsNewBlock = (.ok b, sbi)) :
    (s.unusedBlockLow < s.unusedBlockHigh ∧ b = s.unusedBlockLow ∧
      sbi = { s with
        unusedBlockLow := s.unusedBlockLow + 1
        numFreeBlocks := s.numFreeBlocks - 1
        pageMarks := Function.update s.pageMarks b .inUse }) ∨
    ∃ bins, s.unusedBlockHigh ≤ s.unusedBlockLow ∧ BinAlloc.Takes s.blockBins b bins ∧
      sbi = { s with
        blockBins := bins
        numFreeBlocks := s.numFreeBlocks - 1
        pageMarks := Function.update s.pageMarks b .inUse } := by
  unfold BinAlloc.wpmfsNewBlock at hnew
  split at hnew
  · obtain ⟨hb, rfl⟩ := Prod.mk.inj hnew
    cases hb
    exact .inl ⟨by omega, rfl, rfl⟩
  · split at hnew
    case h_1 blocknr bins hs =>
      obtain ⟨hb, rfl⟩ := Prod.mk.inj hnew
      cases hb
      exact .inr ⟨bins, by omega, BinAlloc.searchBins_some hs, rfl⟩
    case h_2 => simp at hnew

theorem wear_newBlock (h : BinRun.Inv lo hi r) {sbi : BinAlloc}
    (hnew : r.sbi.wpmfsNewBlock = (.ok b, sbi)) :
    Handed lo hi (wear r) b (wear { r with sbi := sbi, allocated := b :: r.allocated }) := by
  obtain ⟨r', hcall, hinv⟩ := @BinRun.Inv.newBlock 0 lo hi r h .b4K
  rw [BinRun.call, hnew] at hcall
  obtain rfl := Option.some.inj hcall
  have hinUse : ∀ x, x ∈ b :: r.allocated ↔ x ∈ r.allocated ∨ x = b := by simp [or_comm]
  obtain ⟨hlt, rfl, rfl⟩ | ⟨bins, hle, htakes, rfl⟩ := wpmfsNewBlock_cases hnew
  · have hwas : (wear r).Free r.sbi.unusedBlockLow := .inl ⟨le_rfl, hlt⟩
    obtain ⟨hlower, hupper⟩ := wear_range h (.inl hwas)
    refine ⟨hinv, hlower, hupper, hwas, fun x => ?_, hinUse, rfl, rfl⟩
    have hout := wear_unused_notMem h le_rfl hlt
    simp only [Free]
    constructor
    · rintro (⟨hx, hx'⟩ | hx)
      · exact ⟨.inl ⟨by omega, hx'⟩, by omega⟩
      · exact ⟨.inr hx, fun hxb => hout (hxb ▸ hx)⟩
    · rintro ⟨⟨hx, hx'⟩ | hx, hne⟩
      · exact .inl ⟨by omega, hx'⟩
      · exact .inr hx
  · have hperm := htakes.perm
    have hwas : (wear r).Free b := .inr (hperm.mem_iff.mpr (List.mem_cons_self ..))
    obtain ⟨hlower, hupper⟩ := wear_range h (.inl hwas)
    refine ⟨hinv, hlower, hupper, hwas, fun x => ?_, hinUse, rfl, rfl⟩
    have hnodup := hperm.nodup_iff.mp (List.nodup_append.mp h.nodup).1
    have hout := (List.nodup_cons.mp hnodup).1
    simp only [Free]
    constructor
    · rintro (⟨hx, hx'⟩ | hx)
      · omega
      · exact ⟨.inr (hperm.mem_iff.mpr (List.mem_cons_of_mem _ hx)), fun hxb => hout (hxb ▸ hx)⟩
    · rintro ⟨⟨hx, hx'⟩ | hx, hne⟩
      · omega
      · exact .inr ((List.mem_cons.mp (hperm.mem_iff.mp hx)).resolve_left hne)

theorem wear_newBlock_error (h : BinRun.Inv lo hi r) {sbi : BinAlloc}
    (hnew : r.sbi.wpmfsNewBlock = (.error e, sbi)) : sbi = r.sbi ∧ e = .enomem := by
  have hfails := (h.oldestFirst.fails e (by rw [hnew])).2.2
  rw [hnew] at hfails
  refine ⟨hfails, ?_⟩
  unfold BinAlloc.wpmfsNewBlock at hnew
  grind

theorem wear_freeBlock (h : BinRun.Inv lo hi r) (hb : (wear r).InUse b)
    (hfree : (wear r).freeBlock o b = some a') : Returned lo hi (wear r) b a' := by
  obtain ⟨r', hcall, rfl⟩ := Option.map_eq_some_iff.mp hfree
  have hbin : 0 ≤ toInt ((o.cnter b).toNat / getIntThresSize o.power) := by
    by_contra hneg
    rw [BinRun.call, BinAlloc.wpmfsFreeBlock_eq_none h.bins (by omega)] at hcall
    cases hcall
  obtain ⟨r'', hcall', hinv⟩ :=
    @BinRun.Inv.freeBlock o.power lo hi r b .b4K o.cnter h hb ⟨rfl, hbin⟩
  obtain rfl : r'' = r' := Option.some.inj (hcall'.symm.trans hcall)
  have hnonneg := (BinAlloc.wpmfsGetBin_nonneg h.bins).mpr hbin
  have hperm := BinAlloc.modify_flatten_perm b (BinAlloc.wpmfsGetBin_lt h.bins o.power (o.cnter b))
  rw [BinRun.call, BinAlloc.wpmfsFreeBlock_eq (h.pos_of_mem hb) hnonneg, Option.map_some] at hcall
  generalize (r.sbi.wpmfsGetBin o.power (o.cnter b)).toNat = i at hperm hcall
  cases hcall
  have hnodup := (List.nodup_append.mp h.nodup).2.1
  refine ⟨hinv, fun x => ?_, fun x => ?_, rfl, rfl⟩
  · rw [Free, Free, hperm.mem_iff, List.mem_cons, or_comm (a := x = b), or_assoc]
  · rw [InUse, InUse, hnodup.mem_erase_iff, and_comm]

end Wear

/-! ## The range-list allocator -/

section Ranges

variable {r : RangeRun} {marks : ℕ → PageMarks}

theorem owned_nodup (h : RangeRun.Inv r) : r.owned.Nodup := by
  refine h.apart.imp fun {p q} hpq heq => ?_
  subst heq
  have := pmfsGetNumblocks_pos p.2
  rw [RangeRun.Apart] at hpq
  omega

theorem ranges_same {sbi : RangeAlloc} {hint : Option ℕ} (h : (ranges r marks).Inv lo hi)
    (hsbi : sbi = r.sbi) (hhint : ∀ pos, hint = some pos → pos < sbi.blockInuse.length) :
    Same lo hi (ranges r marks) (ranges ⟨sbi, r.owned, hint⟩ marks) := by
  subst hsbi
  obtain ⟨hinv, hrest⟩ := h
  exact ⟨⟨⟨hinv.consistent, hinv.first, hinv.used, hinv.apart, hhint⟩, hrest⟩, fun _ => Iff.rfl,
    fun _ => Iff.rfl, rfl, rfl⟩

theorem ranges_newBlock (h : (ranges r marks).Inv lo hi) {sbi : RangeAlloc} {nodeOk : Bool}
    (hnew : r.sbi.pmfsNewBlock .b4K nodeOk = (.ok b, sbi)) :
    Handed lo hi (ranges r marks) b (ranges ⟨sbi, (b, .b4K) :: r.owned, none⟩ marks) := by
  obtain ⟨hinv, rfl, hreserved, howned⟩ := h
  obtain ⟨-, hgrants, hend, -⟩ := hinv.newBlock_ok hnew
  have hout := hgrants.free b le_rfl (Nat.lt_add_of_pos_right (pmfsGetNumblocks_pos _))
  have hlower : lo ≤ b := by
    by_contra hlt
    exact hout (hreserved b (by omega))
  have hinside := hgrants.inside
  have hused : ∀ x, RangeAlloc.Used sbi.blockInuse x ↔
      RangeAlloc.Used r.sbi.blockInuse x ∨ x = b := by
    intro x
    rw [hgrants.used, pmfsGetNumblocks]
    exact or_congr_right (by omega)
  refine ⟨⟨hinv.newBlock hnew, hend, fun x hx => (hused x).mpr (.inl (hreserved x hx)), ?_⟩, hlower,
    ?_, ⟨?_, hout⟩, fun x => ?_, fun x => ?_, ?_, rfl⟩
  · intro p hp
    rcases List.mem_cons.mp hp with rfl | hp
    · exact ⟨rfl, hlower⟩
    · exact howned p hp
  · rw [pmfsGetNumblocks] at hinside
    omega
  · rw [pmfsGetNumblocks] at hinside
    omega
  · simp only [Free, RangeAlloc.Free, hend, hused, not_or]
    tauto
  · simp only [InUse, List.mem_cons, Prod.mk.injEq, and_true]
    tauto
  · exact (Function.update_eq_self b marks).symm

theorem ranges_freeBlock (h : (ranges r marks).Inv lo hi) (hb : (ranges r marks).InUse b) :
    ∃ a', (ranges r marks).freeBlock o b = some a' ∧
      (Returned lo hi (ranges r marks) b a' ∨
        o.nodeOk = false ∧ Same lo hi (ranges r marks) a') := by
  obtain ⟨hinv, hend, hreserved, howned⟩ := h
  obtain ⟨hf, hok⟩ | ⟨sbi, hint, hf, hrel, hend', hc, hpos⟩ :=
    hinv.freeBlock_cases hb none o.nodeOk
  · refine ⟨_, by rw [freeBlock, hf]; rfl, .inr ⟨hok, ?_⟩⟩
    dsimp only
    rw [if_pos rfl]
    exact ranges_same ⟨hinv, hend, hreserved, howned⟩ rfl nofun
  · refine ⟨_, by rw [freeBlock, hf]; rfl, .inl ?_⟩
    have hinv' := hinv.freeBlock hb (.inl rfl) hf
    have hlength := hrel.length
    rw [pmfsGetNumblocks] at hlength
    have hne : sbi ≠ r.sbi := by
      rintro rfl
      omega
    have hused : ∀ x, RangeAlloc.Used sbi.blockInuse x ↔
        RangeAlloc.Used r.sbi.blockInuse x ∧ x ≠ b := by
      intro x
      rw [hrel.used, pmfsGetNumblocks]
      exact and_congr_right fun _ => by omega
    have hlower : lo ≤ b := (howned _ hb).2
    have hinside : b < sbi.blockEnd := by
      obtain ⟨q, hq, -, hle⟩ := (hinv.used _ hb).2 b le_rfl
        (Nat.lt_add_of_pos_right (pmfsGetNumblocks_pos _))
      rw [hend']
      exact hle.trans_lt (hinv.consistent.inside q hq)
    rw [if_neg hne] at hinv'
    dsimp only
    rw [if_neg hne]
    refine ⟨⟨hinv', hend'.trans hend, fun x hx => (hused x).mpr ⟨hreserved x hx, by omega⟩,
      fun p hp => howned p (List.mem_of_mem_erase hp)⟩, fun x => ?_, fun x => ?_, ?_, rfl⟩
    · simp only [Free, RangeAlloc.Free, hused, ← hend']
      by_cases hxb : x = b
      · simp [hxb, hinside]
      · simp [hxb]
    · simp only [InUse, (owned_nodup hinv).mem_erase_iff, ne_eq, Prod.mk.injEq, and_true]
      tauto
    · exact (Function.update_eq_self b marks).symm

theorem ranges_disjoint (h : (ranges r marks).Inv lo hi) (hb : (ranges r marks).Free b) :
    ¬(ranges r marks).InUse b := by
  intro hin
  have hpos : b < b + pmfsGetNumblocks .b4K := Nat.lt_add_of_pos_right (pmfsGetNumblocks_pos _)
  exact hb.2 ((h.1.used _ hin).2 b le_rfl hpos)

end Ranges

/-! ## Both allocators -/

theorem Inv.disjoint (h : a.Inv lo hi) (hb : a.Free b) : ¬a.InUse b := by
  cases a with
  | wear r => exact wear_disjoint h hb
  | ranges r marks => exact ranges_disjoint h hb

theorem Inv.newBlock (h : a.Inv lo hi) (hnew : a.newBlock o = (.ok b, a')) :
    Handed lo hi a b a' := by
  cases a with
  | wear r =>
    cases hr : r.sbi.wpmfsNewBlock with
    | mk res sbi =>
      rw [Factory.newBlock, hr] at hnew
      cases res with
      | ok c =>
        cases hnew
        exact wear_newBlock h hr
      | error e => cases hnew
  | ranges r marks =>
    cases hr : r.sbi.pmfsNewBlock .b4K o.nodeOk with
    | mk res sbi =>
      rw [Factory.newBlock, hr] at hnew
      cases res with
      | ok c =>
        cases hnew
        exact ranges_newBlock h hr
      | error e => cases hnew

/-- The two allocators fail with different error codes. -/
theorem Inv.newBlock_error (h : a.Inv lo hi) (hnew : a.newBlock o = (.error e, a')) :
    Same lo hi a a' ∧ e = if a.isWear then .enomem else .enospc := by
  cases a with
  | wear r =>
    cases hr : r.sbi.wpmfsNewBlock with
    | mk res sbi =>
      rw [Factory.newBlock, hr] at hnew
      cases res with
      | ok c => cases hnew
      | error e' =>
        cases hnew
        obtain ⟨rfl, rfl⟩ := wear_newBlock_error h hr
        exact ⟨⟨h, fun _ => Iff.rfl, fun _ => Iff.rfl, rfl, rfl⟩, rfl⟩
  | ranges r marks =>
    cases hr : r.sbi.pmfsNewBlock .b4K o.nodeOk with
    | mk res sbi =>
      rw [Factory.newBlock, hr] at hnew
      cases res with
      | ok c => cases hnew
      | error e' =>
        cases hnew
        obtain ⟨rfl, rfl, -⟩ := h.1.newBlock_error hr
        exact ⟨ranges_same h rfl nofun, rfl⟩

/-- A block is given back unless a range node is missing. -/
theorem Inv.freeBlock (h : a.Inv lo hi) (hb : a.InUse b) (hfree : a.freeBlock o b = some a') :
    Returned lo hi a b a' ∨ a.isWear = false ∧ o.nodeOk = false ∧ Same lo hi a a' := by
  cases a with
  | wear r => exact .inl (wear_freeBlock h hb hfree)
  | ranges r marks =>
    obtain ⟨a'', hfree', hspec⟩ := ranges_freeBlock h hb (o := o)
    obtain rfl := Option.some.inj (hfree'.symm.trans hfree)
    exact hspec.imp_right fun hspec => ⟨rfl, hspec⟩

@[simp] theorem markPage_pageMarks :
    (a.markPage b m).pageMarks = Function.update a.pageMarks b m := by
  cases a <;> rfl

@[simp] theorem markPage_free : (a.markPage b m).Free x ↔ a.Free x := by
  cases a <;> rfl

@[simp] theorem markPage_inUse : (a.markPage b m).InUse x ↔ a.InUse x := by
  cases a <;> rfl

@[simp] theorem markPage_isWear : (a.markPage b m).isWear = a.isWear := by
  cases a <;> rfl

/-- An allocator does not set `WPMFS_PAGE_VMAP`. -/
theorem markOf_pageVmap (h : (a.pageMarks b).pageVmap = false) : (a.markOf b).pageVmap = false := by
  cases a with
  | wear r => rfl
  | ranges r marks => exact h

theorem Inv.markPage (h : a.Inv lo hi) : (a.markPage b m).Inv lo hi := by
  cases a with
  | wear r =>
    exact ⟨⟨h.blocks, h.counted, h.range⟩, h.bins, h.positive, h.newestFirst, h.past⟩
  | ranges r marks => exact h

/-! ## The count of free blocks -/

/-- `sbi->num_free_blocks`. -/
def numFreeBlocks : Factory → ℕ
  | wear r => r.sbi.numFreeBlocks
  | ranges r _ => r.sbi.numFreeBlocks

@[simp] theorem markPage_numFreeBlocks : (a.markPage b m).numFreeBlocks = a.numFreeBlocks := by
  cases a <;> rfl

theorem Inv.newBlock_count (h : a.Inv lo hi) (hnew : a.newBlock o = (.ok b, a')) :
    a'.numFreeBlocks + 1 = a.numFreeBlocks := by
  cases a with
  | wear r =>
    cases hr : r.sbi.wpmfsNewBlock with
    | mk res sbi =>
      rw [Factory.newBlock, hr] at hnew
      cases res with
      | error e => cases hnew
      | ok c =>
        cases hnew
        have hcounted := BinRun.Partitioned.counted h.toPartitioned
        obtain ⟨hlt, -, rfl⟩ | ⟨bins, -, htakes, rfl⟩ := wpmfsNewBlock_cases hr
        · simp only [numFreeBlocks]
          omega
        · have hlength := htakes.perm.length_eq
          rw [List.length_flatten, List.length_cons] at hlength
          simp only [numFreeBlocks]
          omega
  | ranges r marks =>
    cases hr : r.sbi.pmfsNewBlock .b4K o.nodeOk with
    | mk res sbi =>
      rw [Factory.newBlock, hr] at hnew
      cases res with
      | error e => cases hnew
      | ok c =>
        cases hnew
        obtain ⟨-, hgrants, hend, hconsistent⟩ := h.1.newBlock_ok hr
        have htotal : RangeAlloc.usedTotal sbi.blockInuse ≤ sbi.blockEnd :=
          hconsistent.sorted.total_le_of_lt hconsistent.inside
        have hlength := hgrants.length
        have hfree := h.1.consistent.free
        have hfree' := hconsistent.free
        rw [pmfsGetNumblocks] at hlength
        simp only [numFreeBlocks]
        omega

/-- The blocks that `newBlock` can give. Those in the last bin stay there. -/
def allocatable : Factory → ℕ
  | wear r => r.sbi.unusedBlockHigh - r.sbi.unusedBlockLow +
      (r.sbi.blockBins.dropLast.map List.length).sum
  | ranges r _ => r.sbi.numFreeBlocks

theorem Inv.newBlock_allocatable (h : a.Inv lo hi) (hnew : a.newBlock o = (.ok b, a')) :
    a'.allocatable + 1 = a.allocatable := by
  cases a with
  | wear r =>
    cases hr : r.sbi.wpmfsNewBlock with
    | mk res sbi =>
      rw [Factory.newBlock, hr] at hnew
      cases res with
      | error e => cases hnew
      | ok c =>
        cases hnew
        obtain ⟨hlt, -, rfl⟩ | ⟨bins, -, htakes, rfl⟩ := wpmfsNewBlock_cases hr
        · simp only [allocatable]
          omega
        · have hlength := htakes.length_dropLast
          simp only [allocatable]
          omega
  | ranges r marks =>
    have hcount := h.newBlock_count hnew
    cases hr : r.sbi.pmfsNewBlock .b4K o.nodeOk with
    | mk res sbi =>
      rw [Factory.newBlock, hr] at hnew
      cases res with
      | error e => cases hnew
      | ok c =>
        cases hnew
        exact hcount

theorem Inv.newBlock_full (h : a.Inv lo hi) (hnew : a.newBlock o = (.error e, a')) :
    a.allocatable = 0 := by
  cases a with
  | wear r =>
    cases hr : r.sbi.wpmfsNewBlock with
    | mk res sbi =>
      rw [Factory.newBlock, hr] at hnew
      cases res with
      | ok c => cases hnew
      | error e' =>
        obtain ⟨hunused, hbins, -⟩ := h.oldestFirst.fails e' (by rw [hr])
        have hsum : (r.sbi.blockBins.dropLast.map List.length).sum = 0 := by
          refine List.sum_eq_zero fun n hn => ?_
          obtain ⟨bin, hbin, rfl⟩ := List.mem_map.1 hn
          rw [hbins bin hbin, List.length_nil]
        rw [allocatable]
        omega
  | ranges r marks =>
    by_contra hfree
    obtain ⟨i, rest, hl, -⟩ := h.1.list_eq
    have hs := h.1.consistent.sorted
    have hcount := h.1.consistent.free
    have hfirst := h.1.first
    rw [hl] at hs hcount hfirst
    have hroom : rest = [] → i.blockHigh + 1 < r.sbi.blockEnd := by
      rintro rfl
      have hlow : i.blockLow = 0 := by simpa using hfirst
      have hfree : r.sbi.numFreeBlocks ≠ 0 := hfree
      rw [RangeAlloc.usedTotal_cons] at hcount
      omega
    obtain ⟨b, l, nodes, hplace⟩ :=
      @RangeAlloc.place_one r.sbi.blockEnd r.sbi.numBlocknodeAllocated o.nodeOk i rest hs hroom
    have hloop : RangeAlloc.placeLoop r.sbi.blockEnd (pmfsGetNumblocks .b4K) o.nodeOk
        r.sbi.numBlocknodeAllocated r.sbi.blockInuse = .found b l nodes := by
      rw [hl, RangeAlloc.placeLoop, pmfsGetNumblocks, hplace]
    rw [Factory.newBlock, RangeAlloc.pmfsNewBlock] at hnew
    simp only [hloop] at hnew
    cases hnew

/-- A block that is given back is counted. -/
theorem Inv.freeBlock_count (h : a.Inv lo hi) (hb : a.InUse b) (hfree : a.freeBlock o b = some a') :
    a'.InUse b ∧ a'.numFreeBlocks = a.numFreeBlocks ∨
      ¬a'.InUse b ∧ a'.numFreeBlocks = a.numFreeBlocks + 1 := by
  cases a with
  | wear r =>
    refine .inr ⟨fun hin => ((wear_freeBlock h hb hfree).inUse b |>.mp hin).2 rfl, ?_⟩
    obtain ⟨r', hcall, rfl⟩ := Option.map_eq_some_iff.mp hfree
    obtain ⟨sbi, hsbi, rfl⟩ := Option.map_eq_some_iff.mp hcall
    unfold BinAlloc.wpmfsFreeBlock at hsbi
    dsimp only at hsbi
    split at hsbi
    · cases hsbi
    · obtain rfl := Option.some.inj hsbi
      rfl
  | ranges r marks =>
    obtain ⟨hf, -⟩ | ⟨sbi, hint, hf, hrel, hend, hconsistent, -⟩ :=
      h.1.freeBlock_cases hb none o.nodeOk
    · rw [Factory.freeBlock, hf] at hfree
      obtain rfl := Option.some.inj hfree
      refine .inl ⟨?_, rfl⟩
      rw [InUse, if_pos rfl]
      exact hb
    · have htotal : RangeAlloc.usedTotal r.sbi.blockInuse ≤ r.sbi.blockEnd :=
        h.1.consistent.sorted.total_le_of_lt h.1.consistent.inside
      have hlength := hrel.length
      have hcount := h.1.consistent.free
      have hcount' := hconsistent.free
      rw [pmfsGetNumblocks] at hlength
      have hne : sbi ≠ r.sbi := by
        rintro rfl
        omega
      rw [Factory.freeBlock, hf] at hfree
      obtain rfl := Option.some.inj hfree
      refine .inr ⟨?_, ?_⟩
      · rw [InUse, if_neg hne, (owned_nodup h.1).mem_erase_iff]
        exact fun hin => hin.1 rfl
      · simp only [numFreeBlocks]
        omega

/-! ## A new mount -/

/-- The selected allocator after `pmfs_init_blockmap`, on a device of `blockEnd` blocks of which a
prefix is reserved. The reserved blocks from `lo` on count as handed out: they may be given back. -/
def start (wear : Bool) (lo blockEnd numBins initUsedSize : ℕ) (marks : ℕ → PageMarks) : Factory :=
  let given := List.range' lo (reservedBlocks initUsedSize - lo)
  if wear then
    .wear { BinRun.start blockEnd numBins initUsedSize marks with allocated := given }
  else .ranges { RangeRun.start blockEnd initUsedSize with owned := given.map (·, .b4K) } marks

theorem inv_start {wear : Bool} {numBins initUsedSize : ℕ} {marks : ℕ → PageMarks}
    (hbins : 0 < numBins) (hlo : 0 < lo) (hres : lo ≤ reservedBlocks initUsedSize)
    (hfit : reservedBlocks initUsedSize ≤ hi) :
    (start wear lo hi numBins initUsedSize marks).Inv lo hi := by
  have hpos : 0 < initUsedSize := by
    unfold reservedBlocks at hres
    omega
  cases wear with
  | true =>
    have h := BinRun.inv_start marks hbins hpos hfit
    refine ⟨⟨?_, h.counted, h.range⟩, h.bins, hlo, h.newestFirst, h.past⟩
    have hsplit : List.range' lo (hi - lo) = List.range' lo (reservedBlocks initUsedSize - lo) ++
        List.range' (reservedBlocks initUsedSize) (hi - reservedBlocks initUsedSize) := by
      have happend := List.range'_append_1 (s := lo) (m := reservedBlocks initUsedSize - lo)
        (n := hi - reservedBlocks initUsedSize)
      rw [show lo + (reservedBlocks initUsedSize - lo) = reservedBlocks initUsedSize by omega]
        at happend
      rw [happend]
      congr 1
      omega
    have hblocks := h.blocks
    rw [show (BinRun.start hi numBins initUsedSize marks).allocated = [] from rfl,
      List.append_nil] at hblocks
    rw [hsplit]
    exact List.perm_append_comm.trans (List.Perm.append_left _ hblocks)
  | false =>
    have h := RangeRun.inv_start hpos hfit
    have hused : ∀ x < reservedBlocks initUsedSize,
        RangeAlloc.Used (RangeRun.start hi initUsedSize).sbi.blockInuse x := by
      intro x hx
      exact RangeAlloc.used_cons.mpr (.inl ⟨Nat.zero_le _, by dsimp only; omega⟩)
    have hmem : ∀ p ∈ (List.range' lo (reservedBlocks initUsedSize - lo)).map (·, BlockType.b4K),
        p.2 = .b4K ∧ lo ≤ p.1 ∧ p.1 < reservedBlocks initUsedSize := by
      intro p hp
      obtain ⟨b, hb, rfl⟩ := List.mem_map.mp hp
      exact ⟨rfl, mem_range'_iff.mp hb⟩
    refine ⟨⟨h.consistent, h.first, fun p hp => ?_, ?_, h.hint⟩, rfl,
      fun x hx => hused x (by omega), fun p hp => ⟨(hmem p hp).1, (hmem p hp).2.1⟩⟩
    · obtain ⟨htype, hlow, hhigh⟩ := hmem p hp
      refine ⟨by omega, fun x hx hlt => hused x ?_⟩
      rw [htype, pmfsGetNumblocks] at hlt
      omega
    · have hsorted := List.pairwise_lt_range' (s := lo) (n := reservedBlocks initUsedSize - lo)
      exact List.pairwise_map.mpr (hsorted.imp fun {b c} hbc => .inl hbc)

theorem start_inUse {wear : Bool} {numBins initUsedSize : ℕ} {marks : ℕ → PageMarks} :
    (start wear lo hi numBins initUsedSize marks).InUse b ↔
      lo ≤ b ∧ b < reservedBlocks initUsedSize := by
  cases wear <;> simp [start, InUse, List.mem_range'_1] <;> omega

@[simp] theorem start_pageMarks {wear : Bool} {numBins initUsedSize : ℕ} {marks : ℕ → PageMarks} :
    (start wear lo hi numBins initUsedSize marks).pageMarks = marks := by
  cases wear <;> rfl

end Factory

end Wpmfs.Balloc
