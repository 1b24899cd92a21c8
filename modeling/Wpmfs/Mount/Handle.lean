import Wpmfs.Migrate.Tree

/-!
# Inode numbers from file handles

`pmfs_nfs_get_inode` looks at an inode number from outside before it looks for the inode. The check
lets through the number one past the last inode, and numbers that lie inside of an inode; from every
other number the walk through the inode table leads to the slot, if the tired pages on the way find
blocks to move to.
-/

namespace Wpmfs.Mount

open Balloc Vmap Migrate Radix

/-- The loop of `__pmfs_find_data_block`, which moves tired pages on its way: `o` and `junk` are
what the allocator finds and what is on the stack, by the levels. The shifts are those of an
`unsigned long` and of an `int`, and `idx` is an `unsigned int`. `none` is a bad pointer. -/
def pmfsFindDataBlock (o : ℕ → Surroundings) (junk : ℕ → ℕ) :
    (height bp blocknr : ℕ) → Sb → Option (ℕ × Sb)
  | 0, bp, _, sb => some (bp, sb)
  | h + 1, bp, blocknr, sb =>
    match sb.wpmfsGetBlock bp with
    | none => none
    | some levelPtr =>
      let bitShift := h * 9
      let idx := blocknr / 2 ^ (bitShift % 64) % 2 ^ 32
      match Fs.wpmfsRetrieveDatablk (o h) (junk h) sb levelPtr idx with
      | none => none
      | some (bp, sb) =>
        if bp = 0 then some (0, sb)
        else pmfsFindDataBlock o junk h bp (blocknr % 2 ^ (bitShift % 32)) sb

/-- `pmfs_get_inode`, on an inode table of 4K blocks: the block and the offset in it, or `NULL`. -/
def pmfsGetInode (o : ℕ → Surroundings) (junk : ℕ → ℕ) (table : PmfsInode) (ino : ℕ) (sb : Sb) :
    Option (Option (ℕ × ℕ) × Sb) :=
  if ino = 0 then some (none, sb)
  else
    match pmfsFindDataBlock o junk table.height table.root (ino / 4096) sb with
    | none => none
    | some (bp, sb) =>
      if bp = 0 then some (none, sb)
      else (sb.wpmfsGetBlock bp).map fun b => (some (b, ino % 4096), sb)

/-- `pmfs_nfs_get_inode` goes on to `pmfs_iget`. -/
def pmfsNfsGetInode (sInodesCount : UInt32) (ino : UInt64) : Bool :=
  !decide (ino.toNat < 128) && !decide (ino.toNat / 128 > sInodesCount.toNat)

/-- The block behind a slot of a page, wherever it is mapped. -/
def behind (sb : Sb) (b i : ℕ) : Option ℕ :=
  if sb.words b i = 0 then none else sb.wpmfsGetBlock (sb.words b i)

/-- The block at a position of the level `d` of a table. -/
abbrev page (sb : Sb) (d root k : ℕ) : Option ℕ := find (behind sb) 512 d root k

/-- The pointer is one to the block `b`, in the direct mapping or in the dynamic area. -/
def Points (sb : Sb) (p b : ℕ) : Prop :=
  p = Sb.pmfsGetBlockOff b ∧ 0 < b ∧ b < 2 ^ 45 ∨
    ∃ k < 2 ^ 45, p = 2 ^ 58 + 4096 * k ∧ (sb.area .dynamic).slot k = b ∧
      (sb.area .dynamic).pte k = some b

/-- The pages of a table of height `h` at the block `root` are allocated, each in one place, and
reached through pointers of both kinds. -/
structure Table (sb : Sb) (h root : ℕ) : Prop where
  apart : Apart (behind sb) 512 h root
  inUse : ∀ x, Mem (behind sb) 512 h root x → sb.alloc.InUse x
  points : ∀ x i, Inner (behind sb) 512 h root x → i < 512 → sb.words x i ≠ 0 →
    ∃ b, Points sb (sb.words x i) b

/-- An inode table of as many blocks as `s_inodes_count` says, and no higher than they need. -/
structure InodeTable (lo hi root : ℕ) (table : PmfsInode) (sInodesCount : UInt32) (sb : Sb) :
    Prop where
  lower : 0 < lo
  upper : hi ≤ 2 ^ 45
  alloc : sb.alloc.Inv lo hi
  rootPtr : Points sb table.root root
  pages : Table sb table.height root
  count : ∃ n, sInodesCount.toNat = 32 * n ∧ n ≤ 512 ^ table.height ∧
    ∀ h, table.height = h + 1 → 512 ^ h < n
  present : ∀ i < sInodesCount.toNat, page sb table.height root (i / 32) ≠ none

/-- The pointer is that of the inode with the number `ino`, in the table that `sb` has become: slot
`ino / 128`, the 32 of a block one after the other, with the words it had. -/
structure IsSlot (root : ℕ) (table : PmfsInode) (ino : ℕ) (sb t : Sb) (p : ℕ × ℕ) : Prop where
  block : page t table.height root (ino / 128 / 32) = some p.1
  offset : p.2 = ino / 128 % 32 * 128
  words : (page sb table.height root (ino / 128 / 32)).map sb.words = some (t.words p.1)

/-- The number is that of a slot of the table. The walk to it stays inside of the tree and returns
that slot. -/
structure ReachesSlot (o : ℕ → Surroundings) (junk : ℕ → ℕ) (root : ℕ) (table : PmfsInode)
    (sInodesCount : UInt32) (sb : Sb) (ino : ℕ) : Prop where
  multiple : 128 ∣ ino
  index : ino / 128 < sInodesCount.toNat
  capacity : ino / 4096 < 512 ^ table.height
  returns : ∃ p t, pmfsGetInode o junk table ino sb = some (some p, t) ∧
    IsSlot root table ino sb t p

/-- The tired pages among the last `r` on the way to a position of a table of height `h`. -/
def tiredPages (sb : Sb) (h root k : ℕ) : (r : ℕ) → ℕ
  | 0 => 0
  | r + 1 =>
    (if (page sb (h - r) root (k / 512 ^ r)).any fun b => (sb.marks b).pageTired then 1 else 0) +
      tiredPages sb h root k r

variable {lo hi root h d r k x i b c q : ℕ} {sb t : Sb} {o : Surroundings} {junk p : ℕ}

/-! ## Pointers -/

theorem Points.wpmfsGetBlock (hp : Points sb p b) : sb.wpmfsGetBlock p = some b := by
  obtain ⟨rfl, hpos, hlt⟩ | ⟨j, hj, rfl, -, hpte⟩ := hp
  · exact Sb.wpmfsGetBlock_direct hpos hlt
  · have hloc : (2 ^ 58 + 4096 * j) / 2 ^ 57 % 2 ^ 7 = 2 := by omega
    have hval : (2 ^ 58 + 4096 * j) % 2 ^ 57 / 4096 = j := by omega
    rw [Sb.wpmfsGetBlock, hloc, hval]
    exact hpte

theorem Points.wpmfsGetPfn (hp : Points sb p b) : sb.wpmfsGetPfn p = some b := by
  obtain ⟨rfl, -, hlt⟩ | ⟨j, hj, rfl, hslot, -⟩ := hp
  · exact wpmfsGetPfn_direct hlt
  · have hloc : (2 ^ 58 + 4096 * j) / 2 ^ 57 % 2 ^ 7 = 2 := by omega
    have hval : (2 ^ 58 + 4096 * j) % 2 ^ 57 / 4096 = j := by omega
    rw [Sb.wpmfsGetPfn, hloc, hval]
    exact congrArg some hslot

theorem Points.ne_zero (hp : Points sb p b) : p ≠ 0 := by
  obtain ⟨rfl, hpos, hlt⟩ | ⟨j, -, rfl, -⟩ := hp
  · exact pmfsGetBlockOff_ne_zero hpos hlt
  · omega

theorem Points.of_area (hp : Points sb p b) (harea : t.area = sb.area) : Points t p b := by
  rw [Points, harea]
  exact hp

theorem wpmfsGetBlock_of_area (harea : t.area = sb.area) :
    t.wpmfsGetBlock p = sb.wpmfsGetBlock p := by
  rw [Sb.wpmfsGetBlock, Sb.wpmfsGetBlock, harea]

theorem Table.slot (ht : Table sb h root) (hx : Inner (behind sb) 512 h root x) (hi : i < 512)
    (hb : behind sb x i = some b) : Points sb (sb.words x i) b := by
  have hne : sb.words x i ≠ 0 := by
    intro hzero
    rw [behind, if_pos hzero] at hb
    cases hb
  obtain ⟨c, hc⟩ := ht.points x i hx hi hne
  rw [behind, if_neg hne, hc.wpmfsGetBlock] at hb
  obtain rfl := Option.some.inj hb
  exact hc

/-! ## A page that moves -/

/-- The block `b` behind the slot `i` of `x` is copied to the free block `q`, and the slot
follows. -/
structure Replaces (lo hi : ℕ) (sb t : Sb) (x i b q : ℕ) : Prop where
  slot : behind sb x i = some b
  ne : x ≠ q
  pos : 0 < q
  lt : q < 2 ^ 45
  words : t.words = Function.update (Function.update sb.words q (sb.words b)) x
    (Function.update (sb.words x) i (Sb.pmfsGetBlockOff q))
  area : t.area = sb.area
  handed : Factory.Handed lo hi sb.alloc q t.alloc

theorem Replaces.words_new (hr : Replaces lo hi sb t x i b q) : t.words q = sb.words b := by
  rw [hr.words, Function.update_of_ne hr.ne.symm, Function.update_self]

theorem Replaces.words_of_ne (hr : Replaces lo hi sb t x i b q) {y j : ℕ} (hy : y ≠ q)
    (hyx : y = x → j ≠ i) : t.words y j = sb.words y j := by
  rw [hr.words]
  by_cases h : y = x
  · subst h
    rw [Function.update_self, Function.update_of_ne (hyx rfl)]
  · rw [Function.update_of_ne h, Function.update_of_ne hy]

theorem Replaces.words_slot (hr : Replaces lo hi sb t x i b q) :
    t.words x i = Sb.pmfsGetBlockOff q := by
  rw [hr.words, Function.update_self, Function.update_self]

theorem Replaces.exchange (hr : Replaces lo hi sb t x i b q) :
    Exchange (behind sb) (behind t) x i b q := by
  refine ⟨hr.slot, ?_, fun j => ?_, fun y j hy hyx => ?_⟩
  · rw [behind, hr.words_slot, if_neg (pmfsGetBlockOff_ne_zero hr.pos hr.lt),
      Sb.wpmfsGetBlock_direct hr.pos hr.lt]
  · rw [behind, behind, hr.words_new, wpmfsGetBlock_of_area hr.area]
  · rw [behind, behind, hr.words_of_ne hy hyx, wpmfsGetBlock_of_area hr.area]

/-- What is left of a table when one of its pages has moved. -/
theorem Table.replaces (ht : Table sb h root) (hinv : sb.alloc.Inv lo hi)
    (hr : Replaces lo hi sb t x i b q)
    (hx : Inner (behind sb) 512 h root x) (hi' : i < 512) :
    Table t h root ∧ Moved (behind sb) (behind t) 512 h root (swap b q) ∧
      swap b q root = root ∧ ¬Mem (behind sb) 512 h root q := by
  have hout : ¬Mem (behind sb) 512 h root q := fun hmem =>
    hinv.disjoint hr.handed.was (ht.inUse q hmem)
  have hmoved := hr.exchange.moved ht.apart hx hi' hout
  have hroot : swap b q root = root := swap_of_ne (ht.apart.slot_ne hx hi' hr.slot).2.symm
  refine ⟨⟨hr.exchange.apart ht.apart hx hi' hout, fun y hy => ?_, fun y j hy hj hne => ?_⟩,
    hmoved, hroot, hout⟩
  · obtain ⟨z, hz, rfl⟩ := hmoved.mem_iff.mp (hroot.symm ▸ hy)
    refine (hr.handed.inUse _).mpr ?_
    unfold swap
    split
    · exact .inr rfl
    · exact .inl (ht.inUse z hz)
  · obtain ⟨z, hz, rfl⟩ := hmoved.inner_iff.mp (hroot.symm ▸ hy)
    by_cases hzb : z = b
    · subst hzb
      rw [swap_self, hr.words_new] at hne ⊢
      obtain ⟨c, hc⟩ := ht.points z j hz hj hne
      exact ⟨c, hc.of_area hr.area⟩
    · have hzq : z ≠ q := fun heq => hout (heq ▸ hz.mem)
      rw [swap_of_ne hzb] at hne ⊢
      by_cases hslot : z = x ∧ j = i
      · obtain ⟨rfl, rfl⟩ := hslot
        rw [hr.words_slot]
        exact ⟨q, .inl ⟨rfl, hr.pos, hr.lt⟩⟩
      · have hsame := hr.words_of_ne hzq fun hzx hji => hslot ⟨hzx, hji⟩
        rw [hsame] at hne ⊢
        obtain ⟨c, hc⟩ := ht.points z j hz hj hne
        exact ⟨c, hc.of_area hr.area⟩

theorem tiredPages_congr (hsame : ∀ e < r,
    (page t (h - e) root (k / 512 ^ e)).any (fun b => (t.marks b).pageTired) =
      (page sb (h - e) root (k / 512 ^ e)).any fun b => (sb.marks b).pageTired) :
    tiredPages t h root k r = tiredPages sb h root k r := by
  induction r with
  | zero => rfl
  | succ r ih => rw [tiredPages, tiredPages, hsame r (by omega), ih fun e he => hsame e (by omega)]

/-- A page that moves is not among those after it. -/
theorem Table.tiredPages_replaces (ht : Table sb h root) (hinv : sb.alloc.Inv lo hi)
    (hr : Replaces lo hi sb t x i b q) (hx : Inner (behind sb) 512 h root x) (hi' : i < 512)
    (hle : r ≤ h) (hk : k < 512 ^ h) (hb : page sb (h - r) root (k / 512 ^ r) = some b) :
    tiredPages t h root k r = tiredPages sb h root k r := by
  obtain ⟨-, hmoved, hroot, hout⟩ := ht.replaces hinv hr hx hi'
  have hbound : ∀ e ≤ h, k / 512 ^ e < 512 ^ (h - e) := fun e he =>
    div_pow_lt (by rwa [Nat.sub_add_cancel he])
  refine tiredPages_congr fun e he => ?_
  have hlt := hbound e (by omega)
  have hfind := hmoved.find (Nat.sub_le h e) hlt
  rw [hroot] at hfind
  rw [page, hfind]
  cases hz : find (behind sb) 512 (h - e) root (k / 512 ^ e) with
  | none => simp [page, hz]
  | some z =>
    have hzb : z ≠ b := by
      rintro rfl
      have hlevel := (ht.apart _ _ _ _ z (Nat.sub_le h e) (Nat.sub_le h r) hlt (hbound r hle) hz
        hb).1
      omega
    have hzq : z ≠ q := fun heq => hout ⟨_, Nat.sub_le h e, _, hlt, heq ▸ hz⟩
    have hmarks : t.marks z = sb.marks z := by
      rw [Sb.marks, hr.handed.marks, Function.update_of_ne hzq]
      rfl
    rw [page, hz, Option.map_some, swap_of_ne hzb, Option.any_some, Option.any_some, hmarks]

/-! ## A step of the walk -/

/-- What the walk needs of the file system. -/
structure Walkable (lo hi root h : ℕ) (sb : Sb) : Prop where
  lower : 0 < lo
  upper : hi ≤ 2 ^ 45
  alloc : sb.alloc.Inv lo hi
  pages : Table sb h root

/-- The words of the block at a position of the last level. -/
def leafWords (h root : ℕ) (sb : Sb) (k : ℕ) : Option (ℕ → ℕ) := (page sb h root k).map sb.words

/-- A block that moves keeps its words, and the other blocks of the last level keep theirs. -/
theorem leafWords_replaces (hw : Walkable lo hi root h sb) (hr : Replaces lo hi sb t x i b q)
    (hx : Inner (behind sb) 512 h root x) (hi' : i < 512) (hk : k < 512 ^ h) :
    leafWords h root t k = leafWords h root sb k := by
  obtain ⟨-, hmoved, hroot, hout⟩ := hw.pages.replaces hw.alloc hr hx hi'
  have hfind := hmoved.find le_rfl hk
  rw [hroot] at hfind
  simp only [leafWords, page]
  rw [hfind]
  cases hy : find (behind sb) 512 h root k with
  | none => rfl
  | some y =>
    have hyx : y ≠ x := fun heq => hw.pages.apart.not_inner hk hy (heq ▸ hx)
    have hyq : y ≠ q := fun heq => hout ⟨h, le_rfl, k, hk, heq ▸ hy⟩
    simp only [Option.map_some, Option.some.injEq]
    by_cases hyb : y = b
    · rw [hyb, swap_self, hr.words_new]
    · rw [swap_of_ne hyb]
      funext j
      exact hr.words_of_ne hyq fun heq => absurd heq hyx

/-- With a block to move to, `wpmfs_replace_tired_page` moves the page. -/
theorem Walkable.exists_replaces (hw : Walkable lo hi root h sb) (o : Surroundings) (junk : ℕ)
    (hx : Inner (behind sb) 512 h root x) (hi' : i < 512) (hb : behind sb x i = some b)
    (hroom : sb.alloc.allocatable ≠ 0) :
    ∃ q t, Fs.wpmfsReplaceTiredPage o junk sb x i = some (Sb.pmfsGetBlockOff q, t) ∧
      Replaces lo hi sb t x i b q ∧ t.alloc.allocatable + 1 = sb.alloc.allocatable ∧
      Walkable lo hi root h t := by
  cases hnew : sb.newBlock o with
  | mk res u =>
    obtain ⟨hu, halloc⟩ := newBlock_sb hnew
    cases res with
    | error e => exact absurd (hw.alloc.newBlock_full halloc) hroom
    | ok q =>
      have hgiven := hw.alloc.newBlock halloc
      have hcount := hw.alloc.newBlock_allocatable halloc
      have hlo := hw.lower
      have hhi := hw.upper
      have hlower := hgiven.lower
      have hupper := hgiven.upper
      have hxq : x ≠ q := fun heq =>
        hw.alloc.disjoint hgiven.was (heq ▸ hw.pages.inUse x hx.mem)
      have harea : u.area = sb.area := by rw [hu]
      have hwords : u.words = sb.words := by rw [hu]
      have hsrc : u.wpmfsGetBlock (u.word x i) = some b := by
        rw [wpmfsGetBlock_of_area harea, Sb.word_of_lt hi', hwords]
        exact (hw.pages.slot hx hi' hb).wpmfsGetBlock
      have hr : Replaces lo hi sb ((u.memcpyPage q b).setWord x i (Sb.pmfsGetBlockOff q)) x i b
          q := by
        refine ⟨hb, hxq, by omega, by omega, ?_, ?_, ?_⟩
        · rw [Sb.words_setWord hi', Sb.memcpyPage_words, Function.update_of_ne hxq, hwords]
        · rw [Sb.setWord_area, Sb.memcpyPage_area, harea]
        · rw [Sb.setWord_alloc, Sb.memcpyPage_alloc]
          exact hgiven
      refine ⟨q, _, ?_, hr, ?_, hw.lower, hw.upper, hr.handed.inv,
        (hw.pages.replaces hw.alloc hr hx hi').1⟩
      · rw [Fs.wpmfsReplaceTiredPage, hnew]
        simp only [Fs.movePointer, hsrc,
          Sb.wpmfsGetBlock_direct (show 0 < q by omega) (show q < 2 ^ 45 by omega)]
        rfl
      · rw [Sb.setWord_alloc, Sb.memcpyPage_alloc]
        exact hcount

/-- Without one, it returns no pointer or goes on with what the stack held. -/
theorem Walkable.wpmfsReplaceTiredPage_full (hw : Walkable lo hi root h sb)
    (hfull : sb.alloc.allocatable = 0) :
    Fs.wpmfsReplaceTiredPage o 0 sb x i = none ∨
      ∃ t, Fs.wpmfsReplaceTiredPage o 0 sb x i = some (0, t) := by
  rw [Fs.wpmfsReplaceTiredPage]
  cases hnew : sb.newBlock o with
  | mk res u =>
    cases res with
    | ok q =>
      have hcount := hw.alloc.newBlock_allocatable (newBlock_sb hnew).2
      omega
    | error e =>
      cases e with
      | enomem => exact .inr ⟨u, rfl⟩
      | enospc =>
        left
        have hnull : u.wpmfsGetBlock (Sb.pmfsGetBlockOff 0) = none := rfl
        simp only [Fs.movePointer, hnull]
        cases u.wpmfsGetBlock (u.word x i) <;> rfl

/-- The step of the walk that follows the pointer. -/
theorem pmfsFindDataBlock_succ {os : ℕ → Surroundings} {junks : ℕ → ℕ} (hr : r ≤ 2)
    (hp : Points sb p x) :
    pmfsFindDataBlock os junks (r + 1) p (k % 512 ^ (r + 1)) sb =
      match Fs.wpmfsRetrieveDatablk (os r) (junks r) sb x (k / 512 ^ r % 512) with
      | none => none
      | some (bp, sb) =>
        if bp = 0 then some (0, sb) else pmfsFindDataBlock os junks r bp (k % 512 ^ r) sb := by
  -- the shifts stay below the widths of their types
  have hidx : k % 512 ^ (r + 1) / 2 ^ (r * 9 % 64) % 2 ^ 32 = k / 512 ^ r % 512 := by
    have hpow : 2 ^ (r * 9 % 64) = 512 ^ r := by
      rw [Nat.mod_eq_of_lt (by omega), Nat.mul_comm, pow_mul]
      rfl
    rw [hpow, digit_first, Nat.mod_eq_of_lt (by omega)]
  have hmask : k % 512 ^ (r + 1) % 2 ^ (r * 9 % 32) = k % 512 ^ r := by
    have hpow : 2 ^ (r * 9 % 32) = 512 ^ r := by
      rw [Nat.mod_eq_of_lt (by omega), Nat.mul_comm, pow_mul]
      rfl
    rw [hpow, digits_rest]
  simp only [pmfsFindDataBlock, hp.wpmfsGetBlock, hidx, hmask]

/-- Where the walk is: at the page `x` of the level `h - r`, on the way to a block that is there. -/
structure Under (lo hi root h k r x : ℕ) (sb : Sb) (p : ℕ) : Prop extends
    Walkable lo hi root h sb where
  low : r ≤ 3
  le : r ≤ h
  lt : k < 512 ^ h
  here : page sb (h - r) root (k / 512 ^ r) = some x
  ptr : Points sb p x
  present : page sb h root k ≠ none

theorem Under.inner (hu : Under lo hi root h k (r + 1) x sb p) :
    Inner (behind sb) 512 h root x := by
  have hle := hu.le
  have hlt : k < 512 ^ (h - (r + 1) + (r + 1)) := by rw [Nat.sub_add_cancel hle]; exact hu.lt
  exact ⟨_, by omega, _, div_pow_lt hlt, hu.here⟩

/-- The next page on the way. -/
theorem Under.next (hu : Under lo hi root h k (r + 1) x sb p) :
    ∃ c, behind sb x (k / 512 ^ r % 512) = some c ∧
      page sb (h - r) root (k / 512 ^ r) = some c := by
  have hle := hu.le
  have hlt : k < 512 ^ (h - (r + 1) + (r + 1)) := by rw [Nat.sub_add_cancel hle]; exact hu.lt
  have hlevel : h - (r + 1) + 1 = h - r := by omega
  have hnext := find_descend hlt hu.here
  rw [hlevel] at hnext
  cases hc : behind sb x (k / 512 ^ r % 512) with
  | some c => exact ⟨c, rfl, hnext.trans hc⟩
  | none =>
    have hsum : h - r + r = h := by omega
    have hnone := find_none (hsum.symm ▸ hu.lt) (hnext.trans hc)
    rw [hsum] at hnone
    exact absurd hnone hu.present

/-- What a step leaves. -/
structure Stepped (lo hi root h k r : ℕ) (sb : Sb) (p : ℕ) (t : Sb) : Prop where
  under : ∃ y, Under lo hi root h k r y t p
  words : ∀ k < 512 ^ h, leafWords h root t k = leafWords h root sb k
  room : t.alloc.allocatable + tiredPages sb h root k (r + 1) =
    sb.alloc.allocatable + tiredPages t h root k r

/-- A step of the walk gets to the next page unless that is tired and cannot move. -/
theorem Under.step (hu : Under lo hi root h k (r + 1) x sb p) (o : Surroundings) (junk : ℕ)
    (hroom : sb.alloc.allocatable ≠ 0 ∨ tiredPages sb h root k (r + 1) = tiredPages sb h root k r) :
    ∃ p' t, Fs.wpmfsRetrieveDatablk o junk sb x (k / 512 ^ r % 512) = some (p', t) ∧
      Stepped lo hi root h k r sb p' t := by
  obtain ⟨c, hc, hpage⟩ := hu.next
  have hlow := hu.low
  have hle := hu.le
  have hdigit : k / 512 ^ r % 512 < 512 := Nat.mod_lt _ (by decide)
  have hp := hu.pages.slot hu.inner hdigit hc
  rw [Fs.wpmfsRetrieveDatablk, Sb.word_of_lt hdigit]
  simp only [hp.ne_zero, if_false, hp.wpmfsGetPfn]
  have hcount : tiredPages sb h root k (r + 1) =
      (if (sb.marks c).pageTired then 1 else 0) + tiredPages sb h root k r := by
    rw [tiredPages, hpage, Option.any_some]
  by_cases htired : (sb.marks c).pageTired = true
  · rw [if_pos htired] at hcount ⊢
    have hsome : sb.alloc.allocatable ≠ 0 := hroom.resolve_right (by omega)
    obtain ⟨q, t, hrun, hrep, htaken, hwalk⟩ :=
      hu.toWalkable.exists_replaces o junk hu.inner hdigit hc hsome
    have hmoved := (hu.pages.replaces hu.alloc hrep hu.inner hdigit).2
    have hwords : ∀ k < 512 ^ h, leafWords h root t k = leafWords h root sb k := fun j hj =>
      leafWords_replaces hu.toWalkable hrep hu.inner hdigit hj
    have hahead := hu.pages.tiredPages_replaces hu.alloc hrep hu.inner hdigit
      (show r ≤ h by omega) hu.lt hpage
    have hthere : page t (h - r) root (k / 512 ^ r) = some q := by
      have hlt : k / 512 ^ r < 512 ^ (h - r) :=
        div_pow_lt (by rw [Nat.sub_add_cancel (by omega)]; exact hu.lt)
      have hfind := hmoved.1.find (Nat.sub_le h r) hlt
      have hold : find (behind sb) 512 (h - r) root (k / 512 ^ r) = some c := hpage
      rw [hmoved.2.1, hold, Option.map_some, swap_self] at hfind
      exact hfind
    have hpresent : page t h root k ≠ none := by
      have hleaf := hwords k hu.lt
      intro hnone
      rw [leafWords, leafWords, hnone, Option.map_none, eq_comm, Option.map_eq_none_iff] at hleaf
      exact hu.present hleaf
    exact ⟨_, t, hrun, ⟨q, hwalk, by omega, by omega, hu.lt, hthere,
      .inl ⟨rfl, hrep.pos, hrep.lt⟩, hpresent⟩, hwords, by omega⟩
  · rw [if_neg htired] at hcount ⊢
    exact ⟨_, sb, rfl, ⟨c, hu.toWalkable, by omega, by omega, hu.lt, hpage, hp, hu.present⟩,
      fun _ _ => rfl, by omega⟩

/-- A tired page that cannot move ends the walk. -/
theorem Under.step_full (hu : Under lo hi root h k (r + 1) x sb p)
    (hfull : sb.alloc.allocatable = 0)
    (htired : tiredPages sb h root k (r + 1) ≠ tiredPages sb h root k r) :
    Fs.wpmfsRetrieveDatablk o 0 sb x (k / 512 ^ r % 512) = none ∨
      ∃ t, Fs.wpmfsRetrieveDatablk o 0 sb x (k / 512 ^ r % 512) = some (0, t) := by
  obtain ⟨c, hc, hpage⟩ := hu.next
  have hdigit : k / 512 ^ r % 512 < 512 := Nat.mod_lt _ (by decide)
  have hp := hu.pages.slot hu.inner hdigit hc
  have hmark : (sb.marks c).pageTired = true := by
    by_contra hmark
    rw [tiredPages, hpage, Option.any_some, if_neg hmark, Nat.zero_add] at htired
    exact htired rfl
  rw [Fs.wpmfsRetrieveDatablk, Sb.word_of_lt hdigit]
  simp only [hp.ne_zero, if_false, hp.wpmfsGetPfn, hmark, if_true]
  exact hu.wpmfsReplaceTiredPage_full hfull

/-! ## The walk -/

/-- With room for the tired pages on the way, the walk gets to the block of the position. -/
theorem Under.walk (hu : Under lo hi root h k r x sb p) (os : ℕ → Surroundings) (junks : ℕ → ℕ)
    (hroom : tiredPages sb h root k r ≤ sb.alloc.allocatable) :
    ∃ p' t y, pmfsFindDataBlock os junks r p (k % 512 ^ r) sb = some (p', t) ∧ Points t p' y ∧
      page t h root k = some y ∧ ∀ k < 512 ^ h, leafWords h root t k = leafWords h root sb k := by
  induction r generalizing sb x p with
  | zero =>
    have hhere := hu.here
    rw [pow_zero, Nat.div_one, Nat.sub_zero] at hhere
    exact ⟨p, sb, x, rfl, hu.ptr, hhere, fun _ _ => rfl⟩
  | succ r ih =>
    have hlow := hu.low
    rw [pmfsFindDataBlock_succ (by omega) hu.ptr]
    obtain ⟨p₁, t, hrun, ⟨y, hunder⟩, hwords, hrest⟩ := hu.step (os r) (junks r) (by
      by_cases hzero : sb.alloc.allocatable = 0
      · right
        have hcases : tiredPages sb h root k r ≤ tiredPages sb h root k (r + 1) := by
          rw [tiredPages]
          omega
        omega
      · exact .inl hzero)
    obtain ⟨p', u, z, hwalk, hz, hpage, hsame⟩ := ih hunder (by omega)
    rw [hrun]
    dsimp only
    rw [if_neg hunder.ptr.ne_zero]
    exact ⟨p', u, z, hwalk, hz, hpage, fun j hj => (hsame j hj).trans (hwords j hj)⟩

/-- Without it, the walk does not get there. -/
theorem Under.walk_full (hu : Under lo hi root h k r x sb p)
    (hfull : sb.alloc.allocatable < tiredPages sb h root k r) :
    pmfsFindDataBlock (fun _ => idle) (fun _ => 0) r p (k % 512 ^ r) sb = none ∨
      ∃ t, pmfsFindDataBlock (fun _ => idle) (fun _ => 0) r p (k % 512 ^ r) sb = some (0, t) := by
  induction r generalizing sb x p with
  | zero => simp [tiredPages] at hfull
  | succ r ih =>
    have hlow := hu.low
    rw [pmfsFindDataBlock_succ (by omega) hu.ptr]
    by_cases hstep : sb.alloc.allocatable ≠ 0 ∨
        tiredPages sb h root k (r + 1) = tiredPages sb h root k r
    · obtain ⟨p₁, t, hrun, ⟨y, hunder⟩, -, hrest⟩ := hu.step idle 0 hstep
      rw [hrun]
      dsimp only
      rw [if_neg hunder.ptr.ne_zero]
      exact ih hunder (by omega)
    · rw [not_or, not_not] at hstep
      obtain hnone | ⟨t, ht⟩ := hu.step_full (o := idle) hstep.1 hstep.2
      · exact .inl (by rw [hnone])
      · exact .inr ⟨t, by rw [ht]; rfl⟩

/-! ## The handle -/

variable {table : PmfsInode} {sInodesCount : UInt32} {ino : ℕ}

/-- Inodes are counted in 32 bits: the table has 3 levels at most. -/
theorem InodeTable.height_le (h : InodeTable lo hi root table sInodesCount sb) :
    table.height ≤ 3 := by
  obtain ⟨n, hcount, -, hheight⟩ := h.count
  have hlt := sInodesCount.toNat_lt
  by_contra hhigh
  obtain ⟨l, hl⟩ : ∃ l, table.height = l + 1 := ⟨table.height - 1, by omega⟩
  have hn := hheight l hl
  have hpow : 512 ^ 3 ≤ 512 ^ l := Nat.pow_le_pow_right (by decide) (by omega)
  omega

theorem InodeTable.capacity (h : InodeTable lo hi root table sInodesCount sb)
    (hindex : ino / 128 < sInodesCount.toNat) : ino / 4096 < 512 ^ table.height := by
  obtain ⟨n, hcount, hn, -⟩ := h.count
  omega

/-- The walk to the slot of an inode of the table starts at the root. -/
theorem InodeTable.under (h : InodeTable lo hi root table sInodesCount sb)
    (hindex : ino / 128 < sInodesCount.toNat) :
    Under lo hi root table.height (ino / 4096) table.height root sb table.root := by
  have hk := h.capacity hindex
  have hpresent := h.present _ hindex
  have hblock : ino / 128 / 32 = ino / 4096 := by omega
  rw [hblock] at hpresent
  refine ⟨⟨h.lower, h.upper, h.alloc, h.pages⟩, h.height_le, le_rfl, hk, ?_, h.rootPtr, hpresent⟩
  rw [Nat.sub_self]
  rfl

/-- With room for the tired pages on the way, the walk returns the slot. -/
theorem InodeTable.pmfsGetInode (h : InodeTable lo hi root table sInodesCount sb)
    (os : ℕ → Surroundings) (junks : ℕ → ℕ) (hino : 128 ≤ ino) (hslot : 128 ∣ ino)
    (hindex : ino / 128 < sInodesCount.toNat)
    (hroom : tiredPages sb table.height root (ino / 4096) table.height ≤ sb.alloc.allocatable) :
    ∃ p t, Mount.pmfsGetInode os junks table ino sb = some (some p, t) ∧
      IsSlot root table ino sb t p := by
  have hk := h.capacity hindex
  obtain ⟨bp, t, y, hrun, hy, hpage, hwords⟩ := (h.under hindex).walk os junks hroom
  rw [Nat.mod_eq_of_lt hk] at hrun
  rw [Mount.pmfsGetInode, if_neg (by omega), hrun]
  simp only [hy.ne_zero, if_false, hy.wpmfsGetBlock, Option.map_some]
  have hblock : ino / 4096 = ino / 128 / 32 := by omega
  have hleaf := hwords _ hk
  rw [leafWords, leafWords, hpage, hblock] at hleaf
  rw [hblock] at hpage
  exact ⟨_, t, rfl, hpage, by dsimp only; omega, hleaf.symm⟩

/-- Without it, there are surroundings in which it does not. -/
theorem InodeTable.pmfsGetInode_full (h : InodeTable lo hi root table sInodesCount sb)
    (hino : 128 ≤ ino) (hindex : ino / 128 < sInodesCount.toNat)
    (hfull : sb.alloc.allocatable < tiredPages sb table.height root (ino / 4096) table.height)
    (ptr : ℕ × ℕ) (t : Sb) :
    Mount.pmfsGetInode (fun _ => idle) (fun _ => 0) table ino sb ≠ some (some ptr, t) := by
  have hwalk := (h.under hindex).walk_full hfull
  rw [Nat.mod_eq_of_lt (h.capacity hindex)] at hwalk
  rw [Mount.pmfsGetInode, if_neg (by omega)]
  obtain hnone | ⟨u, hu⟩ := hwalk
  · rw [hnone]
    exact nofun
  · rw [hu]
    exact nofun

/-- The check of `pmfs_nfs_get_inode` keeps to the slots of the table just for the numbers that are
too small or too large by far, and for those of slots, if tired pages on the way can be moved. -/
theorem pmfsNfsGetInode_reachesSlot_iff (h : InodeTable lo hi root table sInodesCount sb)
    (ino : UInt64) :
    (pmfsNfsGetInode sInodesCount ino = true →
        ∀ os junks, ReachesSlot os junks root table sInodesCount sb ino.toNat) ↔
      (ino.toNat < 128 ∨ sInodesCount.toNat < ino.toNat / 128 ∨
        128 ∣ ino.toNat ∧ ino.toNat / 128 ≠ sInodesCount.toNat ∧
          tiredPages sb table.height root (ino.toNat / 4096) table.height ≤
            sb.alloc.allocatable) := by
  have hgoes : pmfsNfsGetInode sInodesCount ino = true ↔
      128 ≤ ino.toNat ∧ ino.toNat / 128 ≤ sInodesCount.toNat := by
    simp [pmfsNfsGetInode]
  rw [hgoes]
  constructor
  · intro hreaches
    by_contra hnot
    have hslot := hreaches (by omega) (fun _ => idle) fun _ => 0
    have hmultiple := hslot.multiple
    have hindex := hslot.index
    obtain ⟨p, t, hrun, -⟩ := hslot.returns
    exact h.pmfsGetInode_full (by omega) hindex (by omega) p t hrun
  · rintro hcond ⟨hlow, hhigh⟩ os junks
    obtain ⟨hslot, hne, hroom⟩ := (hcond.resolve_left (by omega)).resolve_left (by omega)
    have hindex : ino.toNat / 128 < sInodesCount.toNat := by omega
    exact ⟨hslot, hindex, h.capacity hindex, h.pmfsGetInode os junks hlow hslot hindex hroom⟩

/-! ## A table of one block -/

theorem inodeTable_smallSb : InodeTable 1 8 1 ⟨4096, 0⟩ 32 smallSb := by
  have hroot : ∀ {d k x : ℕ}, d ≤ 0 → page smallSb d 1 k = some x → x = 1 := by
    intro d k x hd hx
    obtain rfl : d = 0 := by omega
    exact (Option.some.inj hx).symm
  refine ⟨by decide, by decide, inv_smallSb, .inl (by decide), ⟨?_, ?_, ?_⟩, ⟨1, by decide,
    by decide, nofun⟩, fun i _ => nofun⟩
  · intro d e j k x hd he hj hk _ _
    obtain rfl : d = 0 := Nat.le_zero.1 hd
    obtain rfl : e = 0 := Nat.le_zero.1 he
    exact ⟨rfl, by omega⟩
  · rintro x ⟨d, hd, k, -, hx⟩
    exact inUse_smallSb.2 (by rw [hroot hd hx]; decide)
  · rintro x i ⟨d, hd, -⟩
    exact absurd hd (Nat.not_lt_zero d)

/-- The last slot of the table is reached. -/
theorem reachesSlot_last :
    ReachesSlot (fun _ => idle) (fun _ => 0) 1 ⟨4096, 0⟩ 32 smallSb (3968 : UInt64).toNat :=
  (pmfsNfsGetInode_reachesSlot_iff inodeTable_smallSb 3968).2
    (.inr (.inr ⟨by decide, by decide, Nat.zero_le _⟩)) (by decide) _ _

/-- The number after that of the last slot gets through the check. -/
theorem not_reachesSlot_beyond : ¬∀ (lo hi root : ℕ) (table : PmfsInode) (sInodesCount : UInt32)
    (sb : Sb) (ino : UInt64), InodeTable lo hi root table sInodesCount sb →
    pmfsNfsGetInode sInodesCount ino = true →
    ∀ os junks, ReachesSlot os junks root table sInodesCount sb ino.toNat := by
  intro h
  have hslot := h 1 8 1 _ 32 smallSb 4096 inodeTable_smallSb (by decide) (fun _ => idle) fun _ => 0
  exact absurd hslot.index (by decide)

end Wpmfs.Mount
