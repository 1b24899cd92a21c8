import Wpmfs.Library.Radix
import Wpmfs.Migrate.Basic

/-!
# Block trees in the direct mapping

A block tree whose pointers are block offsets of the direct mapping is a radix tree of blocks, and
its lookups follow the positions of that tree. To move the block behind a pointer is to exchange it
for a copy.
-/

namespace Wpmfs.Migrate

open Balloc Vmap Radix

/-- The block behind a slot of a page. -/
def child (sb : Sb) (b i : ℕ) : Option ℕ :=
  if sb.words b i = 0 then none else some (sb.words b i / 4096)

/-- The block at a position of the level `d` of the tree. -/
abbrev block (sb : Sb) (d root k : ℕ) : Option ℕ := find (child sb) 512 d root k

/-- The tree of height `h` at the block `root`: its blocks are allocated, each is in one place, and
its pointers are block offsets of the direct mapping. -/
structure Tree (sb : Sb) (h root : ℕ) : Prop where
  apart : Apart (child sb) 512 h root
  inUse : ∀ x, Mem (child sb) 512 h root x → sb.alloc.InUse x
  bounds : ∀ x, Mem (child sb) 512 h root x → 0 < x ∧ x < 2 ^ 45
  direct : ∀ x i, Inner (child sb) 512 h root x → i < 512 → 4096 ∣ sb.words x i

variable {sb sb' : Sb} {h d root x i b q k lo hi : ℕ} {a : Factory} {m : PageMarks}

theorem child_eq_some : child sb x i = some b ↔ sb.words x i ≠ 0 ∧ sb.words x i / 4096 = b := by
  grind [child]

theorem child_eq_none : child sb x i = none ↔ sb.words x i = 0 := by
  grind [child]

/-- A pointer is the block offset of the block behind it. -/
theorem Tree.pointer (ht : Tree sb h root) (hx : Inner (child sb) 512 h root x) (hi : i < 512)
    (hb : child sb x i = some b) : sb.words x i = Sb.pmfsGetBlockOff b := by
  have hdvd := ht.direct x i hx hi
  have hbounds := ht.bounds b (hx.slot_mem hi hb)
  obtain ⟨-, hdiv⟩ := child_eq_some.mp hb
  rw [Sb.pmfsGetBlockOff]
  omega

theorem pmfsGetBlockOff_ne_zero (hb : 0 < b) (hlt : b < 2 ^ 45) : Sb.pmfsGetBlockOff b ≠ 0 := by
  rw [Sb.pmfsGetBlockOff]
  omega

theorem pmfsGetBlockOff_div (hlt : b < 2 ^ 45) : Sb.pmfsGetBlockOff b / 4096 = b := by
  rw [Sb.pmfsGetBlockOff]
  omega

theorem wpmfsGetPfn_direct (hlt : b < 2 ^ 45) : sb.wpmfsGetPfn (Sb.pmfsGetBlockOff b) = some b := by
  have hloc : Sb.pmfsGetBlockOff b / 2 ^ 57 % 2 ^ 7 = 0 := by
    rw [Sb.pmfsGetBlockOff]
    omega
  rw [Sb.wpmfsGetPfn, hloc, pmfsGetBlockOff_div hlt]
  rfl

/-- The rest of a lookup, from the level `d` on. -/
theorem Tree.pmfsFindDataBlock_from {r : ℕ} (ht : Tree sb (d + r) root) (hk : k < 512 ^ (d + r))
    (hx : block sb d root (k / 512 ^ r) = some x) :
    Fs.pmfsFindDataBlock sb r (Sb.pmfsGetBlockOff x) (k % 512 ^ r) =
      (block sb (d + r) root k).elim 0 Sb.pmfsGetBlockOff := by
  induction r generalizing d x with
  | zero =>
    rw [pow_zero, Nat.div_one] at hx
    rw [Nat.add_zero, hx]
    rfl
  | succ r ih =>
    have hlt : k / 512 ^ (r + 1) < 512 ^ d := div_pow_lt hk
    have hinner : Inner (child sb) 512 (d + (r + 1)) root x := ⟨d, by omega, _, hlt, hx⟩
    obtain ⟨hpos, hsize⟩ := ht.bounds x hinner.mem
    have hdigit : k / 512 ^ r % 512 < 512 := Nat.mod_lt _ (by decide)
    have hnext := find_descend hk hx
    rw [Fs.pmfsFindDataBlock, Sb.wpmfsGetBlock_direct hpos hsize]
    dsimp only
    rw [digit_first, digits_rest, Sb.word_of_lt hdigit]
    cases hc : child sb x (k / 512 ^ r % 512) with
    | none =>
      rw [hc] at hnext
      rw [if_pos (child_eq_none.mp hc)]
      rw [Nat.add_comm r, ← Nat.add_assoc] at hk ⊢
      rw [block, find_none hk hnext]
      rfl
    | some c =>
      rw [hc] at hnext
      have hbounds := ht.bounds c (hinner.slot_mem hdigit hc)
      rw [ht.pointer hinner hdigit hc, if_neg (pmfsGetBlockOff_ne_zero hbounds.1 hbounds.2)]
      rw [Nat.add_comm r, ← Nat.add_assoc] at ht hk ⊢
      exact ih ht hk hnext

/-- `__pmfs_find_data_block` finds the block at the position. -/
theorem Tree.pmfsFindDataBlock (ht : Tree sb h root) (hk : k < 512 ^ h) :
    Fs.pmfsFindDataBlock sb h (Sb.pmfsGetBlockOff root) k =
      (block sb h root k).elim 0 Sb.pmfsGetBlockOff := by
  have hroot : block sb 0 root (k / 512 ^ h) = some root := rfl
  have hzero : 0 + h = h := Nat.zero_add h
  have hfrom := Tree.pmfsFindDataBlock_from (hzero.symm ▸ ht) (hzero.symm ▸ hk) hroot
  rwa [Nat.mod_eq_of_lt hk, hzero] at hfrom

theorem newBlock_sb {o : Surroundings} {r : Except Errno ℕ} (hnew : sb.newBlock o = (r, sb')) :
    sb' = { sb with alloc := sb'.alloc } ∧ sb.alloc.newBlock o = (r, sb'.alloc) := by
  rw [Sb.newBlock] at hnew
  cases hres : sb.alloc.newBlock o with
  | mk res a =>
    rw [hres] at hnew
    cases hnew
    exact ⟨rfl, rfl⟩

/-- Blocks below the last level that change leave the tree. -/
theorem Tree.same (ht : Tree sb h root) (sb' : Sb)
    (hwords : ∀ y, Inner (child sb) 512 h root y → sb'.words y = sb.words y)
    (halloc : ∀ y, sb.alloc.InUse y → sb'.alloc.InUse y) :
    Tree sb' h root ∧ Moved (child sb) (child sb') 512 h root id := by
  have hmoved : Moved (child sb) (child sb') 512 h root id := by
    refine moved_id fun y j hy _ => ?_
    rw [child, child, hwords y hy]
  refine ⟨⟨hmoved.apart ht.apart fun _ _ _ _ => id, fun y hy => ?_, fun y hy => ?_,
    fun y j hy hj => ?_⟩, hmoved⟩
  · obtain ⟨z, hz, rfl⟩ := hmoved.mem_iff.mp hy
    exact halloc z (ht.inUse z hz)
  · obtain ⟨z, hz, rfl⟩ := hmoved.mem_iff.mp hy
    exact ht.bounds z hz
  · obtain ⟨z, hz, rfl⟩ := hmoved.inner_iff.mp hy
    rw [id, hwords z hz]
    exact ht.direct z j hz hj

/-! ## Moving a block -/

theorem movePointer_eq_some (ht : Tree sb h root) (hx : Inner (child sb) 512 h root x)
    (hi : i < 512) (hb : child sb x i = some b) (hq : 0 < q) (hlt : q < 2 ^ 45) (hne : x ≠ q) :
    ∃ t, Fs.movePointer sb x i q = some t ∧ t.alloc = sb.alloc ∧
      t.words = Function.update (Function.update sb.words q (sb.words b)) x
        (Function.update (sb.words x) i (Sb.pmfsGetBlockOff q)) := by
  obtain ⟨hpos, hsize⟩ := ht.bounds b (hx.slot_mem hi hb)
  rw [Fs.movePointer, Sb.word_of_lt hi, ht.pointer hx hi hb, Sb.wpmfsGetBlock_direct hpos hsize,
    Sb.wpmfsGetBlock_direct hq hlt]
  refine ⟨_, rfl, by simp, ?_⟩
  rw [Sb.words_setWord hi, Sb.memcpyPage_words, Function.update_of_ne hne]

/-- The block `b` behind the slot `i` of `x` is copied to `q`, and the slot follows. -/
structure Moves (sb sb' : Sb) (x i b q : ℕ) : Prop where
  slot : child sb x i = some b
  ne : x ≠ q
  words : sb'.words = Function.update (Function.update sb.words q (sb.words b)) x
    (Function.update (sb.words x) i (Sb.pmfsGetBlockOff q))
  inUse : ∀ y, sb.alloc.InUse y ∨ y = q → sb'.alloc.InUse y

theorem Moves.words_new (hm : Moves sb sb' x i b q) : sb'.words q = sb.words b := by
  rw [hm.words, Function.update_of_ne hm.ne.symm, Function.update_self]

theorem Moves.words_of_ne (hm : Moves sb sb' x i b q) {y j : ℕ} (hy : y ≠ q)
    (hyx : y = x → j ≠ i) : sb'.words y j = sb.words y j := by
  rw [hm.words]
  by_cases h : y = x
  · subst h
    rw [Function.update_self, Function.update_of_ne (hyx rfl)]
  · rw [Function.update_of_ne h, Function.update_of_ne hy]

theorem Moves.words_slot (hm : Moves sb sb' x i b q) : sb'.words x i = Sb.pmfsGetBlockOff q := by
  rw [hm.words, Function.update_self, Function.update_self]

theorem Moves.exchange (hm : Moves sb sb' x i b q) (hq : 0 < q) (hlt : q < 2 ^ 45) :
    Exchange (child sb) (child sb') x i b q := by
  refine ⟨hm.slot, ?_, fun j => ?_, fun y j hy hyx => ?_⟩
  · rw [child, hm.words_slot, if_neg (pmfsGetBlockOff_ne_zero hq hlt), pmfsGetBlockOff_div hlt]
  · rw [child, child, hm.words_new]
  · rw [child, child, hm.words_of_ne hy hyx]

theorem Tree.moves (ht : Tree sb h root) (hm : Moves sb sb' x i b q)
    (hx : Inner (child sb) 512 h root x) (hi : i < 512) (hfresh : ¬sb.alloc.InUse q) (hq : 0 < q)
    (hlt : q < 2 ^ 45) :
    Tree sb' h root ∧ Moved (child sb) (child sb') 512 h root (swap b q) ∧ b ≠ root := by
  have hex := hm.exchange hq hlt
  have hout : ¬Mem (child sb) 512 h root q := fun hmem => hfresh (ht.inUse q hmem)
  have hmoved := hex.moved ht.apart hx hi hout
  have hne := (ht.apart.slot_ne hx hi hm.slot).2
  have hroot : swap b q root = root := swap_of_ne hne.symm
  refine ⟨⟨hex.apart ht.apart hx hi hout, fun y hy => ?_, fun y hy => ?_, fun y j hy hj => ?_⟩,
    hmoved, hne⟩
  · obtain ⟨z, hz, rfl⟩ := hmoved.mem_iff.mp (hroot.symm ▸ hy)
    refine hm.inUse _ ?_
    unfold swap
    split
    · exact .inr rfl
    · exact .inl (ht.inUse z hz)
  · obtain ⟨z, hz, rfl⟩ := hmoved.mem_iff.mp (hroot.symm ▸ hy)
    unfold swap
    split
    · exact ⟨hq, hlt⟩
    · exact ht.bounds z hz
  · obtain ⟨z, hz, rfl⟩ := hmoved.inner_iff.mp (hroot.symm ▸ hy)
    by_cases hzb : z = b
    · subst hzb
      rw [swap_self, hm.words_new]
      exact ht.direct z j hz hj
    · have hzq : z ≠ q := fun heq => hout (heq ▸ hz.mem)
      rw [swap_of_ne hzb]
      by_cases hslot : z = x ∧ j = i
      · obtain ⟨rfl, rfl⟩ := hslot
        rw [hm.words_slot, Sb.pmfsGetBlockOff]
        omega
      · rw [hm.words_of_ne hzq fun hzx hji => hslot ⟨hzx, hji⟩]
        exact ht.direct z j hz hj

/-- What `wpmfs_replace_tired_page` may do once the allocator does not say `-ENOSPC`: there is no
block for the page, or the page moves to one. -/
theorem Tree.wpmfsReplaceTiredPage {o : Surroundings} {junk bp : ℕ} (ht : Tree sb h root)
    (hinv : sb.alloc.Inv lo hi) (hlo : 0 < lo) (hhi : hi ≤ 2 ^ 45)
    (hx : Inner (child sb) 512 h root x) (hi' : i < 512) (hb : child sb x i = some b)
    (hspace : (sb.newBlock o).1 ≠ .error .enospc)
    (hrun : Fs.wpmfsReplaceTiredPage o junk sb x i = some (bp, sb')) :
    (bp = 0 ∧ ∃ f : Factory, sb' = { sb with alloc := f } ∧ f.Inv lo hi ∧
      ∀ y, sb.alloc.InUse y → f.InUse y) ∨
    ∃ q, bp = Sb.pmfsGetBlockOff q ∧ Moves sb sb' x i b q ∧ ¬sb.alloc.InUse q ∧ lo ≤ q ∧ q < hi ∧
      sb'.alloc.Inv lo hi := by
  rw [Fs.wpmfsReplaceTiredPage] at hrun
  cases hnew : sb.newBlock o with
  | mk r u =>
    obtain ⟨hu, halloc⟩ := newBlock_sb hnew
    rw [hnew] at hrun hspace
    cases r with
    | error e =>
      obtain ⟨hsame, -⟩ := hinv.newBlock_error halloc
      cases e with
      | enospc => exact absurd rfl hspace
      | enomem =>
        cases hrun
        exact .inl ⟨rfl, sb'.alloc, hu, hsame.inv, fun y => (hsame.inUse y).mpr⟩
    | ok q =>
      have hgiven := hinv.newBlock halloc
      have hfresh : ¬sb.alloc.InUse q := hinv.disjoint hgiven.was
      have hlower := hgiven.lower
      have hupper := hgiven.upper
      have hxq : x ≠ q := fun heq => hfresh (heq ▸ ht.inUse x hx.mem)
      obtain ⟨hutree, -⟩ := ht.same { sb with alloc := u.alloc } (fun _ _ => rfl)
        fun y hy => (hgiven.inUse y).mpr (.inl hy)
      obtain ⟨v, hv, hvalloc, hvwords⟩ := movePointer_eq_some hutree hx hi' hb
        (show 0 < q by omega) (by omega) hxq
      rw [← hu] at hv
      simp only [hv, Option.map_some] at hrun
      obtain ⟨rfl, rfl⟩ := Prod.mk.inj (Option.some.inj hrun)
      dsimp only at hvalloc hvwords
      refine .inr ⟨q, rfl, ⟨hb, hxq, hvwords, fun y hy => ?_⟩, hfresh, hlower, hupper, ?_⟩
      · rw [hvalloc]
        exact (hgiven.inUse y).mpr hy
      · rw [hvalloc]
        exact hgiven.inv

/-! ## A small tree -/

/-- The kernel has memory, and no page has been written to. -/
def idle : Surroundings := ⟨true, 10, fun _ => 0⟩

/-- A device of 8 blocks, of which the blocks 1 and 2 are allocated, with a pointer from the first
to the second. -/
def smallSb : Sb where
  alloc := .start true 1 8 4 12288 fun _ => ⟨true, false, false, false⟩
  words b i := if b = 1 ∧ i = 0 then 8192 else 0
  pageIndex _ := 0
  area _ := ⟨fun _ => 0, fun _ => 0, fun _ => none, 0⟩

theorem smallSb_alloc :
    smallSb.alloc = .start true 1 8 4 12288 fun _ => ⟨true, false, false, false⟩ := rfl

theorem inv_smallSb : smallSb.alloc.Inv 1 8 := by
  rw [smallSb_alloc]
  exact Factory.inv_start (by decide) (by decide) (by decide) (by decide)

theorem inUse_smallSb : smallSb.alloc.InUse x ↔ 1 ≤ x ∧ x < 3 := by
  rw [smallSb_alloc]
  exact Factory.start_inUse

theorem child_smallSb : child smallSb 1 i = if i = 0 then some 2 else none := by
  by_cases hi : i = 0 <;> simp [child, smallSb, hi]

theorem block_smallSb (hd : d ≤ 1) (hk : k < 512 ^ d) (hx : block smallSb d 1 k = some x) :
    k = 0 ∧ x = d + 1 := by
  obtain rfl | rfl : d = 0 ∨ d = 1 := by omega
  · cases hx
    exact ⟨by omega, rfl⟩
  · rw [pow_one] at hk
    rw [block, find_succ (by omega), Nat.div_eq_of_lt hk, Nat.mod_eq_of_lt hk, find,
      Option.bind_some, child_smallSb] at hx
    split at hx
    · cases hx
      exact ⟨‹_›, rfl⟩
    · cases hx

theorem tree_smallSb : Tree smallSb 1 1 := by
  have hmem : ∀ x, Mem (child smallSb) 512 1 1 x → 1 ≤ x ∧ x < 3 := by
    rintro x ⟨d, hd, k, hk, hx⟩
    obtain ⟨-, rfl⟩ := block_smallSb hd hk hx
    omega
  refine ⟨fun d e j k x hd he hj hk hx hx' => ?_, fun x hx => ?_, fun x hx => ?_, fun x i hx _ => ?_⟩
  · obtain ⟨rfl, h⟩ := block_smallSb hd hj hx
    obtain ⟨rfl, h'⟩ := block_smallSb he hk hx'
    omega
  · exact inUse_smallSb.mpr (hmem x hx)
  · have := hmem x hx
    omega
  · simp only [smallSb]
    split <;> decide

/-- A tree of one block. -/
theorem tree_zero (hinUse : sb.alloc.InUse x) (hpos : 0 < x) (hlt : x < 2 ^ 45) : Tree sb 0 x := by
  have hmem : ∀ y, Mem (child sb) 512 0 x y → y = x := by
    rintro y ⟨d, hd, k, hk, hy⟩
    obtain rfl : d = 0 := by omega
    exact (Option.some.inj hy).symm
  refine ⟨fun d e j k y hd he hj hk _ _ => ?_, fun y hy => hmem y hy ▸ hinUse,
    fun y hy => hmem y hy ▸ ⟨hpos, hlt⟩, fun y i hy _ => ?_⟩
  · obtain rfl : d = 0 := by omega
    obtain rfl : e = 0 := by omega
    omega
  · obtain ⟨d, hd, -⟩ := hy
    omega

end Wpmfs.Migrate
