import Wpmfs.Migrate.Tree

/-!
# Migrating a mapped page of a file

`_level_type_rmap` copies the page to a new block, has the pointer of the block tree follow, and
gives the old block back. The pointer that it looks for is one in a page of the tree: a file of one
block, whose tree has the height 0, has none. The page cache then gets the new block and the old one
is free, with the inode still pointing to it.
-/

namespace Wpmfs.Migrate

open Balloc Vmap Radix

variable {sb sb' : Sb} {h d root x i b q k lo hi ino pgoff junk : ℕ} {s t : Fs} {o o' : Surroundings}
  {pi : PmfsInode} {entry : DaxEntry}

/-- The block trees of the files are in the direct mapping of a device whose blocks are numbered
with 45 bits, and no block is in two of them. -/
structure Files (lo hi : ℕ) (s : Fs) : Prop where
  lower : 0 < lo
  upper : hi ≤ 2 ^ 45
  alloc : s.sb.alloc.Inv lo hi
  tree : ∀ ino pi, s.inode ino = some pi → pi.root ≠ 0 →
    4096 ∣ pi.root ∧ Tree s.sb pi.height (pi.root / 4096)
  apart : ∀ ino ino' pi pi' x, s.inode ino = some pi → s.inode ino' = some pi' → pi.root ≠ 0 →
    pi'.root ≠ 0 → Mem (child s.sb) 512 pi.height (pi.root / 4096) x →
    Mem (child s.sb) 512 pi'.height (pi'.root / 4096) x → ino = ino'

/-- The page of the block `b` is mapped: it is the one at the offset `pgoff` of the file. -/
structure Mapped (hi : ℕ) (s : Fs) (ino pgoff b : ℕ) (pi : PmfsInode) (entry : DaxEntry) :
    Prop where
  inode : s.inode ino = some pi
  found : s.findDataBlock ino pgoff = Sb.pmfsGetBlockOff b
  lower : 0 < b
  upper : b < hi
  mapping : s.mapping b = some ino
  index : s.sb.pageIndex b = pgoff
  slot : s.iPages ino pgoff = some entry

/-- The migration gets a block, nothing is in its way, and it comes back with the old block given
back. -/
structure Succeeds (o o' : Surroundings) (junk : ℕ) (s : Fs) (ino b : ℕ) (entry : DaxEntry) (q : ℕ)
    (t : Fs) : Prop where
  freeing : s.freeing ino = false
  transHuge : s.transHuge b = false
  locked : entry.locked = false
  newBlock : (s.sb.newBlock o).1 = .ok q
  node : s.sb.alloc.isWear = true ∨ o'.nodeOk = true
  run : s.levelTypeRmap o o' junk b = some t

/-- The file has the new block in the place of the old one, and the old one is free. -/
structure Intact (s t : Fs) (ino pgoff b q : ℕ) (entry : DaxEntry) : Prop where
  found : t.findDataBlock ino pgoff = Sb.pmfsGetBlockOff q
  contents : t.sb.words q = s.sb.words b
  slot : t.iPages ino pgoff = some ⟨q, entry.flags, false⟩
  others : ∀ ino' k, (ino' = ino → k ≠ pgoff) → t.findDataBlock ino' k = s.findDataBlock ino' k
  free : t.sb.alloc.Free b
  unreferenced : ∀ ino' pi', t.inode ino' = some pi' → pi'.root ≠ 0 →
    ¬Mem (child t.sb) 512 pi'.height (pi'.root / 4096) b

/-! ## The pointer of a block -/

/-- The rest of the search for the pointer, from the level `d` on. -/
theorem Tree.wpmfsFindPdatablk_from {r : ℕ} (ht : Tree sb (d + (r + 1)) root)
    (ret : Option (ℕ × ℕ)) (hk : k < 512 ^ (d + (r + 1)))
    (hx : block sb d root (k / 512 ^ (r + 1)) = some x)
    (hb : block sb (d + (r + 1)) root k = some b) :
    ∃ y i, Fs.wpmfsFindPdatablk sb (r + 1) (Sb.pmfsGetBlockOff x) (k % 512 ^ (r + 1)) ret =
        some (some (y, i)) ∧
      Inner (child sb) 512 (d + (r + 1)) root y ∧ i < 512 ∧ child sb y i = some b := by
  induction r generalizing d x ret with
  | zero =>
    have hinner : Inner (child sb) 512 (d + 1) root x := ⟨d, by omega, _, div_pow_lt hk, hx⟩
    obtain ⟨hpos, hsize⟩ := ht.bounds x hinner.mem
    have hdigit : k / 512 ^ 0 % 512 < 512 := Nat.mod_lt _ (by decide)
    have hnext := find_descend hk hx
    rw [pow_zero, Nat.div_one] at hnext hdigit
    have hc : child sb x (k % 512) = some b := hnext.symm.trans hb
    have hbounds := ht.bounds b (hinner.slot_mem hdigit hc)
    refine ⟨x, k % 512, ?_, hinner, hdigit, hc⟩
    rw [Fs.wpmfsFindPdatablk, Sb.wpmfsGetBlock_direct hpos hsize]
    dsimp only
    rw [digit_first, pow_zero, Nat.div_one, Sb.word_of_lt hdigit, ht.pointer hinner hdigit hc,
      if_neg (pmfsGetBlockOff_ne_zero hbounds.1 hbounds.2), Fs.wpmfsFindPdatablk]
  | succ r ih =>
    have hinner : Inner (child sb) 512 (d + (r + 1 + 1)) root x :=
      ⟨d, by omega, _, div_pow_lt hk, hx⟩
    obtain ⟨hpos, hsize⟩ := ht.bounds x hinner.mem
    have hdigit : k / 512 ^ (r + 1) % 512 < 512 := Nat.mod_lt _ (by decide)
    have hnext := find_descend hk hx
    have hsum : d + (r + 1 + 1) = d + 1 + (r + 1) := by omega
    rw [Fs.wpmfsFindPdatablk, Sb.wpmfsGetBlock_direct hpos hsize]
    dsimp only
    rw [digit_first, digits_rest, Sb.word_of_lt hdigit]
    cases hc : child sb x (k / 512 ^ (r + 1) % 512) with
    | none =>
      rw [hc] at hnext
      rw [hsum] at hk hb
      rw [block, find_none hk hnext] at hb
      cases hb
    | some c =>
      rw [hc] at hnext
      have hbounds := ht.bounds c (hinner.slot_mem hdigit hc)
      rw [ht.pointer hinner hdigit hc, if_neg (pmfsGetBlockOff_ne_zero hbounds.1 hbounds.2)]
      rw [hsum] at ht hk hb ⊢
      exact ih ht _ hk hnext hb

/-- `__wpmfs_find_pdatablk` finds the slot that the block is behind. -/
theorem Tree.wpmfsFindPdatablk (ht : Tree sb h root) (hpos : 0 < h) (hk : k < 512 ^ h)
    (hb : block sb h root k = some b) :
    ∃ y i, Fs.wpmfsFindPdatablk sb h (Sb.pmfsGetBlockOff root) k none = some (some (y, i)) ∧
      Inner (child sb) 512 h root y ∧ i < 512 ∧ child sb y i = some b := by
  obtain ⟨r, rfl⟩ : ∃ r, h = r + 1 := ⟨h - 1, by omega⟩
  have hzero : 0 + (r + 1) = r + 1 := Nat.zero_add _
  have hroot : block sb 0 root (k / 512 ^ (r + 1)) = some root := rfl
  have hfrom := Tree.wpmfsFindPdatablk_from (hzero.symm ▸ ht) none (hzero.symm ▸ hk) hroot
    (by rwa [hzero])
  rwa [Nat.mod_eq_of_lt hk, hzero] at hfrom

/-! ## Lookups -/

/-- A lookup does not read the allocator. -/
theorem pmfsFindDataBlock_alloc {a : Factory} {bp : ℕ} :
    Fs.pmfsFindDataBlock { sb with alloc := a } h bp k = Fs.pmfsFindDataBlock sb h bp k := by
  induction h generalizing bp k with
  | zero => rfl
  | succ h ih =>
    have hsame : Sb.wpmfsGetBlock { sb with alloc := a } bp = sb.wpmfsGetBlock bp := rfl
    rw [Fs.pmfsFindDataBlock, Fs.pmfsFindDataBlock, hsame]
    cases sb.wpmfsGetBlock bp with
    | none => rfl
    | some p =>
      dsimp only
      rw [ih]
      rfl

theorem pmfsFindDataBlock_null : Fs.pmfsFindDataBlock sb h 0 k = 0 := by
  cases h <;> rfl

/-- A lookup in a file finds the block at the position. -/
theorem findDataBlock_tree {r : ℕ} (hinode : s.inode ino = some pi)
    (hroot : pi.root = Sb.pmfsGetBlockOff r) (ht : Tree s.sb pi.height r) :
    s.findDataBlock ino k =
      if 512 ^ pi.height ≤ k then 0
      else (block s.sb pi.height r k).elim 0 Sb.pmfsGetBlockOff := by
  rw [Fs.findDataBlock, hinode]
  dsimp only
  split
  · rfl
  · rw [hroot, ht.pmfsFindDataBlock (by omega)]

theorem findDataBlock_null (hroot : ∀ pi, s.inode ino = some pi → pi.root = 0) :
    s.findDataBlock ino k = 0 := by
  rw [Fs.findDataBlock]
  cases hinode : s.inode ino with
  | none => rfl
  | some pi =>
    dsimp only
    rw [hroot pi hinode, pmfsFindDataBlock_null, ite_self]

/-- The tree of a file that is not empty. -/
theorem Files.rooted (hf : Files lo hi s) (hinode : s.inode ino = some pi) (hne : pi.root ≠ 0) :
    ∃ r, pi.root = Sb.pmfsGetBlockOff r ∧ pi.root / 4096 = r ∧ Tree s.sb pi.height r := by
  obtain ⟨hdvd, ht⟩ := hf.tree ino pi hinode hne
  have hbounds := ht.bounds _ mem_root
  refine ⟨_, ?_, rfl, ht⟩
  rw [Sb.pmfsGetBlockOff]
  omega

/-- The position of the mapped page. -/
theorem Files.position (hf : Files lo hi s) (hm : Mapped hi s ino pgoff b pi entry) :
    pi.root ≠ 0 ∧ pgoff < 512 ^ pi.height ∧ ∃ r, pi.root = Sb.pmfsGetBlockOff r ∧
      pi.root / 4096 = r ∧ Tree s.sb pi.height r ∧ block s.sb pi.height r pgoff = some b := by
  have hupper := hf.upper
  have hlt := hm.upper
  have hne := pmfsGetBlockOff_ne_zero hm.lower (by omega)
  have hfound := hm.found
  have hroot : pi.root ≠ 0 := by
    intro hz
    rw [findDataBlock_null fun pi' hpi' => by
      rw [hm.inode] at hpi'
      exact Option.some.inj hpi' ▸ hz] at hfound
    exact hne hfound.symm
  obtain ⟨r, hr, hdiv, ht⟩ := hf.rooted hm.inode hroot
  rw [findDataBlock_tree hm.inode hr ht] at hfound
  split at hfound
  · exact absurd hfound.symm hne
  · have hk : pgoff < 512 ^ pi.height := by omega
    refine ⟨hroot, hk, r, hr, hdiv, ht, ?_⟩
    cases hy : block s.sb pi.height r pgoff with
    | none =>
      rw [hy] at hfound
      exact absurd hfound.symm hne
    | some y =>
      rw [hy, Option.elim_some] at hfound
      have hybounds := ht.bounds y ⟨_, le_rfl, _, hk, hy⟩
      have hsame := congrArg (· / 4096) hfound
      simp only [pmfsGetBlockOff_div hybounds.2, pmfsGetBlockOff_div (show b < 2 ^ 45 by omega)]
        at hsame
      rw [hsame]

/-! ## The migration -/

/-- The pages before the tree is changed. -/
def handOver (s : Fs) (ino pgoff b q : ℕ) : Fs :=
  { s with
    sb.pageIndex := Function.update (Function.update s.sb.pageIndex q pgoff) b 0
    mapping := Function.update (Function.update s.mapping q (some ino)) b none }

/-- The page cache after that. -/
def setEntry (u : Fs) (ino pgoff q flags : ℕ) : Fs :=
  { u with
    iPages := Function.update u.iPages ino
      (Function.update (u.iPages ino) pgoff (some ⟨q, flags, false⟩)) }

theorem levelTypeRmapCore_eq (htrans : s.transHuge b = false) (hmapping : s.mapping b = some ino)
    (hindex : s.sb.pageIndex b = pgoff) (hslot : s.iPages ino pgoff = some entry)
    (hlocked : entry.locked = false) : s.levelTypeRmapCore b q =
      ((handOver s ino pgoff b q).wpmfsReplaceSingleDatablk ino pgoff q).map fun u =>
        (true, setEntry u ino pgoff q entry.flags) := by
  unfold Fs.levelTypeRmapCore
  rw [htrans, if_neg (by simp), hmapping, hindex]
  dsimp only
  rw [hslot]
  dsimp only
  rw [if_neg (by simp [hlocked])]
  rfl

/-- The steps of a migration that nothing is in the way of. -/
theorem Mapped.levelTypeRmap (hm : Mapped hi s ino pgoff b pi entry)
    (hs : Succeeds o o' junk s ino b entry q t) (hnew : s.sb.newBlock o = (.ok q, sb)) :
    ∃ u sb', (handOver (s.setSb sb) ino pgoff b q).wpmfsReplaceSingleDatablk ino pgoff q = some u ∧
      u.sb.freeBlock o' b = some sb' ∧ t = (setEntry u ino pgoff q entry.flags).setSb sb' := by
  have hrun := hs.run
  have hindex : (s.setSb sb).sb.pageIndex b = pgoff := by
    have hsb := (newBlock_sb hnew).1
    rw [Fs.setSb, hsb]
    exact hm.index
  rw [Fs.levelTypeRmap, hm.mapping] at hrun
  dsimp only at hrun
  rw [hs.freeing, if_neg (by simp), hnew] at hrun
  dsimp only at hrun
  rw [Fs.rmapTo, levelTypeRmapCore_eq (s := s.setSb sb) hs.transHuge hm.mapping hindex hm.slot
    hs.locked] at hrun
  cases hu : (handOver (s.setSb sb) ino pgoff b q).wpmfsReplaceSingleDatablk ino pgoff q with
  | none =>
    rw [hu] at hrun
    cases hrun
  | some u =>
    rw [hu] at hrun
    obtain ⟨sb', hfree, rfl⟩ := Option.map_eq_some_iff.mp hrun
    exact ⟨u, sb', rfl, hfree, rfl⟩

/-- The old block is allocated until it is given back, and free then. -/
theorem Files.freed (hf : Files lo hi s) (hm : Mapped hi s ino pgoff b pi entry)
    (hnew : s.sb.newBlock o = (.ok q, sb)) (hnode : s.sb.alloc.isWear = true ∨ o'.nodeOk = true)
    {u : Fs} (hu : u.sb.alloc = sb.alloc) (hfree : u.sb.freeBlock o' b = some sb') :
    sb'.alloc.Free b ∧ sb' = { u.sb with alloc := sb'.alloc } := by
  obtain ⟨-, hk, r, -, -, ht, hb⟩ := hf.position hm
  obtain ⟨-, halloc⟩ := newBlock_sb hnew
  have hgiven := hf.alloc.newBlock halloc
  obtain ⟨a, ha, rfl⟩ := Option.map_eq_some_iff.mp hfree
  have hinUse : u.sb.alloc.InUse b :=
    hu ▸ (hgiven.inUse b).mpr (.inl (ht.inUse b ⟨_, le_rfl, _, hk, hb⟩))
  refine ⟨?_, rfl⟩
  rcases (hu ▸ hgiven.inv : u.sb.alloc.Inv lo hi).freeBlock hinUse ha with
    hreturned | ⟨hkind, hno, -⟩
  · exact (hreturned.free b).mpr (.inr rfl)
  · rw [hu, hgiven.kind] at hkind
    rcases hnode with hwear | hok
    · simp [hkind] at hwear
    · simp [hno] at hok

/-- The new block is one of the device that nothing refers to. -/
theorem Files.given (hf : Files lo hi s) (hnew : s.sb.newBlock o = (.ok q, sb)) :
    ¬s.sb.alloc.InUse q ∧ 0 < q ∧ q < 2 ^ 45 ∧ ∀ x, s.sb.alloc.InUse x ∨ x = q → sb.alloc.InUse x := by
  obtain ⟨-, halloc⟩ := newBlock_sb hnew
  have hgiven := hf.alloc.newBlock halloc
  have hlo := hf.lower
  have hhi := hf.upper
  have hlower := hgiven.lower
  have hupper := hgiven.upper
  exact ⟨hf.alloc.disjoint hgiven.was, by omega, by omega, fun x hx => (hgiven.inUse x).mpr hx⟩

/-- In a file of more than one block the pointer follows the page. -/
theorem Files.replaced (hf : Files lo hi s) (hm : Mapped hi s ino pgoff b pi entry)
    (hnew : s.sb.newBlock o = (.ok q, sb)) (hpos : 0 < pi.height) {r : ℕ}
    (hroot : pi.root = Sb.pmfsGetBlockOff r) (ht : Tree s.sb pi.height r)
    (hk : pgoff < 512 ^ pi.height) (hb : block s.sb pi.height r pgoff = some b) :
    ∃ v x i, (handOver (s.setSb sb) ino pgoff b q).wpmfsReplaceSingleDatablk ino pgoff q =
        some ((handOver (s.setSb sb) ino pgoff b q).setSb v) ∧
      v.alloc = sb.alloc ∧ Inner (child s.sb) 512 pi.height r x ∧ i < 512 ∧
      Moves s.sb v x i b q := by
  obtain ⟨hfresh, hq, hlt, hinUse⟩ := hf.given hnew
  obtain ⟨hsb, -⟩ := newBlock_sb hnew
  -- the tree is where it was
  have hwords : (handOver (s.setSb sb) ino pgoff b q).sb.words = s.sb.words := by
    rw [handOver, Fs.setSb, hsb]
  have hchild : child (handOver (s.setSb sb) ino pgoff b q).sb = child s.sb := by
    funext x i
    rw [child, child, hwords]
  obtain ⟨ht', -⟩ := ht.same (handOver (s.setSb sb) ino pgoff b q).sb
    (fun x _ => congrFun hwords x) fun x hx => hinUse x (.inl hx)
  have hb' : block (handOver (s.setSb sb) ino pgoff b q).sb pi.height r pgoff = some b := by
    rwa [block, hchild]
  obtain ⟨x, i, hfind, hx, hi', hslot⟩ := ht'.wpmfsFindPdatablk hpos hk hb'
  have hxs : Inner (child s.sb) 512 pi.height r x := hchild ▸ hx
  have hxq : x ≠ q := fun heq => hfresh (heq ▸ ht.inUse x hxs.mem)
  obtain ⟨v, hv, hvalloc, hvwords⟩ := movePointer_eq_some ht' hx hi' hslot hq hlt hxq
  rw [hwords] at hvwords
  refine ⟨v, x, i, ?_, hvalloc, hxs, hi', ⟨hchild ▸ hslot, hxq, hvwords, fun y hy => ?_⟩⟩
  · rw [Fs.wpmfsReplaceSingleDatablk, show (handOver (s.setSb sb) ino pgoff b q).inode ino = some pi
      from hm.inode]
    dsimp only
    rw [hroot, hfind]
    dsimp only
    rw [hv]
    rfl
  · rw [hvalloc]
    exact hinUse y hy

theorem Files.intact (hf : Files lo hi s) (hm : Mapped hi s ino pgoff b pi entry)
    (hs : Succeeds o o' junk s ino b entry q t) (hpos : 0 < pi.height) :
    Intact s t ino pgoff b q entry := by
  obtain ⟨hne, hk, r, hroot, hdiv, ht, hb⟩ := hf.position hm
  have hnew : s.sb.newBlock o = (.ok q, (s.sb.newBlock o).2) := by
    rw [← hs.newBlock]
  obtain ⟨hfresh, hq, hlt, -⟩ := hf.given hnew
  obtain ⟨v, x, i, hrep, hvalloc, hx, hi', hmoves⟩ := hf.replaced hm hnew hpos hroot ht hk hb
  obtain ⟨u, sb', hu, hfree, rfl⟩ := hm.levelTypeRmap hs hnew
  obtain rfl := Option.some.inj (hrep.symm.trans hu)
  obtain ⟨hbfree, hsb'⟩ := hf.freed hm hnew hs.node hvalloc hfree
  replace hsb' : sb' = { v with alloc := sb'.alloc } := hsb'
  obtain ⟨htv, hmoved, hbr⟩ := ht.moves hmoves hx hi' hfresh hq hlt
  have hlookup : ∀ ino' k, ((setEntry ((handOver (s.setSb (s.sb.newBlock o).2) ino pgoff b q).setSb
      v) ino pgoff q entry.flags).setSb sb').findDataBlock ino' k =
      (s.setSb v).findDataBlock ino' k := by
    intro ino' k
    rw [hsb', Fs.findDataBlock, Fs.findDataBlock]
    simp only [Fs.setSb, setEntry, handOver, pmfsFindDataBlock_alloc]
  have hchild : child sb' = child v := by
    rw [hsb']
    rfl
  have hblock : ∀ k < 512 ^ pi.height, block v pi.height r k =
      (block s.sb pi.height r k).map (swap b q) := by
    intro k hk
    have hfind := hmoved.find le_rfl hk
    rwa [swap_of_ne hbr.symm] at hfind
  -- another file keeps all its blocks
  have hother : ∀ ino' pi' r', ino' ≠ ino → s.inode ino' = some pi' → pi'.root ≠ 0 →
      pi'.root / 4096 = r' → Tree s.sb pi'.height r' →
      Tree v pi'.height r' ∧ Moved (child s.sb) (child v) 512 pi'.height r' id := by
    intro ino' pi' r' hino hpi' hne' hdiv' ht'
    refine ht'.same v (fun y hy => ?_) fun y hy => hmoves.inUse y (.inl hy)
    have hyx : y ≠ x := by
      rintro rfl
      exact hino (hf.apart ino' ino pi' pi y hpi' hm.inode hne' hne (hdiv' ▸ hy.mem)
        (hdiv ▸ hx.mem))
    have hyq : y ≠ q := fun heq => hfresh (heq ▸ ht'.inUse y hy.mem)
    funext j
    exact hmoves.words_of_ne hyq fun heq => absurd heq hyx
  refine ⟨?_, ?_, ?_, fun ino' k hk' => ?_, hbfree, fun ino' pi' hpi' hne' hmem => ?_⟩
  · rw [hlookup, findDataBlock_tree (s := s.setSb v) hm.inode hroot htv, if_neg (by omega)]
    change (block v pi.height r pgoff).elim 0 _ = _
    rw [hblock pgoff hk, hb, Option.map_some, swap_self]
    rfl
  · change sb'.words q = _
    rw [hsb']
    exact hmoves.words_new
  · simp [setEntry, Fs.setSb]
  · rw [hlookup]
    by_cases hroot0 : ∃ pi', s.inode ino' = some pi' ∧ pi'.root ≠ 0
    · obtain ⟨pi', hpi', hne'⟩ := hroot0
      obtain ⟨r', hroot', hdiv', ht'⟩ := hf.rooted hpi' hne'
      by_cases hino : ino' = ino
      · subst hino
        obtain rfl := Option.some.inj (hpi'.symm.trans hm.inode)
        rw [findDataBlock_tree (s := s.setSb v) hm.inode hroot htv,
          findDataBlock_tree hm.inode hroot ht]
        split
        · rfl
        · rename_i hlt'
          change (block v pi'.height r k).elim 0 _ = _
          rw [hblock k (by omega)]
          cases hy : block s.sb pi'.height r k with
          | none => rfl
          | some y =>
            have hyb : y ≠ b := by
              rintro rfl
              exact hk' rfl (ht.apart _ _ _ _ _ le_rfl le_rfl (by omega) hk hy hb).2
            rw [Option.map_some, swap_of_ne hyb]
      · obtain ⟨htv', hmoved'⟩ := hother ino' pi' r' hino hpi' hne' hdiv' ht'
        rw [findDataBlock_tree (s := s.setSb v) hpi' hroot' htv', findDataBlock_tree hpi' hroot' ht']
        split
        · rfl
        · change (block v pi'.height r' k).elim 0 _ = _
          rw [block, hmoved'.find_id le_rfl (by omega)]
    · have hnull : ∀ pi', s.inode ino' = some pi' → pi'.root = 0 := by
        intro pi' hpi'
        by_contra hne'
        exact hroot0 ⟨pi', hpi', hne'⟩
      rw [findDataBlock_null hnull, findDataBlock_null (s := s.setSb v) hnull]
  · change s.inode ino' = some pi' at hpi'
    change Mem (child sb') 512 pi'.height (pi'.root / 4096) b at hmem
    obtain ⟨r', hroot', hdiv', ht'⟩ := hf.rooted hpi' hne'
    have hbq : b ≠ q := fun heq => hfresh (heq ▸ ht.inUse b ⟨_, le_rfl, _, hk, hb⟩)
    rw [hchild, hdiv'] at hmem
    by_cases hino : ino' = ino
    · subst hino
      obtain rfl := Option.some.inj (hpi'.symm.trans hm.inode)
      obtain rfl : r = r' := hdiv.symm.trans hdiv'
      rw [← swap_of_ne (q := q) hbr.symm] at hmem
      obtain ⟨z, -, hz⟩ := hmoved.mem_iff.mp hmem
      by_cases hzb : z = b
      · rw [hzb, swap_self] at hz
        exact hbq hz.symm
      · rw [swap_of_ne hzb] at hz
        exact hzb hz
    · obtain ⟨-, hmoved'⟩ := hother ino' pi' r' hino hpi' hne' hdiv' ht'
      obtain ⟨z, hz, rfl⟩ := hmoved'.mem_iff.mp hmem
      exact hino (hf.apart ino' ino pi' pi z hpi' hm.inode hne' hne (hdiv' ▸ hz)
        (hdiv ▸ ⟨_, le_rfl, _, hk, hb⟩))

/-- The search for the pointer of a file of one block finds nothing. -/
theorem Files.not_intact (hf : Files lo hi s) (hm : Mapped hi s ino pgoff b pi entry)
    (hs : Succeeds o o' junk s ino b entry q t) (hzero : pi.height = 0) :
    ¬Intact s t ino pgoff b q entry := by
  intro hintact
  obtain ⟨hne, hk, r, hroot, hdiv, ht, hb⟩ := hf.position hm
  have hnew : s.sb.newBlock o = (.ok q, (s.sb.newBlock o).2) := by
    rw [← hs.newBlock]
  obtain ⟨u, sb', hu, hfree, rfl⟩ := hm.levelTypeRmap hs hnew
  have hrep : (handOver (s.setSb (s.sb.newBlock o).2) ino pgoff b q).wpmfsReplaceSingleDatablk ino
      pgoff q = some (handOver (s.setSb (s.sb.newBlock o).2) ino pgoff b q) := by
    rw [Fs.wpmfsReplaceSingleDatablk,
      show (handOver (s.setSb (s.sb.newBlock o).2) ino pgoff b q).inode ino = some pi from hm.inode]
    dsimp only
    rw [hzero]
    rfl
  obtain rfl := Option.some.inj (hrep.symm.trans hu)
  -- the inode still points to the old block
  refine hintact.unreferenced ino pi hm.inode hne ?_
  rw [hzero, hdiv]
  rw [hzero] at hb
  obtain rfl : r = b := Option.some.inj hb
  exact mem_root

/-- A migration that succeeds keeps the file intact if and only if its tree has a page of pointers.
-/
theorem Files.intact_iff (hf : Files lo hi s) (hm : Mapped hi s ino pgoff b pi entry)
    (hs : Succeeds o o' junk s ino b entry q t) :
    Intact s t ino pgoff b q entry ↔ 0 < pi.height := by
  constructor
  · intro hintact
    by_contra hpos
    exact hf.not_intact hm hs (by omega) hintact
  · exact hf.intact hm hs

/-! ## Two small files -/

/-- A file whose page at the offset 0 is the block 2. -/
def oneFile (pi : PmfsInode) : Fs where
  sb := smallSb
  inode ino := if ino = 1 then some pi else none
  freeing _ := false
  mapping b := if b = 2 then some 1 else none
  transHuge _ := false
  iPages _ _ := some ⟨2, 0, false⟩

theorem files_oneFile (hdvd : 4096 ∣ pi.root) (ht : Tree smallSb pi.height (pi.root / 4096)) :
    Files 1 8 (oneFile pi) := by
  have hpi : ∀ ino pi', (oneFile pi).inode ino = some pi' → ino = 1 ∧ pi = pi' := by
    intro ino pi' h
    simp only [oneFile] at h
    split at h
    · exact ⟨‹_›, Option.some.inj h⟩
    · cases h
  refine ⟨by decide, by decide, inv_smallSb, fun ino pi' h _ => ?_,
    fun ino ino' pi' pi'' x h h' _ _ _ _ => ?_⟩
  · obtain ⟨-, rfl⟩ := hpi ino pi' h
    exact ⟨hdvd, ht⟩
  · rw [(hpi ino pi' h).1, (hpi ino' pi'' h').1]

/-- The page behind a pointer moves. -/
theorem intact_oneFile : ∃ t, Succeeds idle idle 0 (oneFile ⟨4096, 1⟩) 1 2 ⟨2, 0, false⟩ 3 t ∧
    Intact (oneFile ⟨4096, 1⟩) t 1 0 2 3 ⟨2, 0, false⟩ := by
  have hf : Files 1 8 (oneFile ⟨4096, 1⟩) := files_oneFile (by decide) tree_smallSb
  have hm : Mapped 8 (oneFile ⟨4096, 1⟩) 1 0 2 ⟨4096, 1⟩ ⟨2, 0, false⟩ :=
    ⟨rfl, rfl, by decide, by decide, rfl, rfl, rfl⟩
  obtain ⟨t, ht⟩ : ∃ t, (oneFile ⟨4096, 1⟩).levelTypeRmap idle idle 0 2 = some t := ⟨_, rfl⟩
  have hs : Succeeds idle idle 0 (oneFile ⟨4096, 1⟩) 1 2 ⟨2, 0, false⟩ 3 t :=
    ⟨rfl, rfl, rfl, rfl, .inl rfl, ht⟩
  exact ⟨t, hs, (Files.intact_iff hf hm hs).2 (by decide)⟩

/-- The page of a file of one block does not: the inode is left with a free block. -/
theorem not_intact_oneFile : ∃ t, Files 1 8 (oneFile ⟨8192, 0⟩) ∧
    Mapped 8 (oneFile ⟨8192, 0⟩) 1 0 2 ⟨8192, 0⟩ ⟨2, 0, false⟩ ∧
    Succeeds idle idle 0 (oneFile ⟨8192, 0⟩) 1 2 ⟨2, 0, false⟩ 3 t ∧
    ¬Intact (oneFile ⟨8192, 0⟩) t 1 0 2 3 ⟨2, 0, false⟩ := by
  have hf : Files 1 8 (oneFile ⟨8192, 0⟩) :=
    files_oneFile (by decide) (tree_zero (inUse_smallSb.mpr (by decide)) (by decide) (by decide))
  have hm : Mapped 8 (oneFile ⟨8192, 0⟩) 1 0 2 ⟨8192, 0⟩ ⟨2, 0, false⟩ :=
    ⟨rfl, rfl, by decide, by decide, rfl, rfl, rfl⟩
  obtain ⟨t, ht⟩ : ∃ t, (oneFile ⟨8192, 0⟩).levelTypeRmap idle idle 0 2 = some t := ⟨_, rfl⟩
  have hs : Succeeds idle idle 0 (oneFile ⟨8192, 0⟩) 1 2 ⟨2, 0, false⟩ 3 t :=
    ⟨rfl, rfl, rfl, rfl, .inl rfl, ht⟩
  exact ⟨t, hf, hm, hs, hf.not_intact hm hs rfl⟩

end Wpmfs.Migrate
