import Wpmfs.File.Tree
import Wpmfs.Pages.Alloc

/-!
# One block more for an inode

`pmfs_alloc_blocks` for one block: the tree gets as many levels as the block number needs, all of
its blocks staying where they are, and then the block is allocated on its path. Whether this
succeeds or not, an abort leaves the inode and all pages that were there before as they were.
-/

namespace Wpmfs.Pages

open Bytes Persist Journal Tx

/-- The bytes of the inode that describe its tree. -/
def fields (pi : ℕ) : Set ℕ := {x | pi + 2 ≤ x ∧ x < pi + 16 ∨ pi + 40 ≤ x ∧ x < pi + 48}

/-- The bytes of all pages of pointers. -/
def nodes (own : Owner) : Set ℕ := {x | ∃ p j k, own p = some (j + 1, k) ∧ x ∈ page p}

/-- The tree of an inode of at least one block. -/
structure Tree (own : Owner) (m : Mem) (pi : ℕ) : Prop where
  height : height m pi ≤ 3
  root : root m pi ≠ 0
  placed : Placed own m (Pages.height m pi) (Pages.root m pi) 0

/-- What the allocation of block `n` did to an inode. -/
structure Extended (sbi : SbInfo) (pi n : ℕ) (own own' : Owner) (s : Tx) (r : Option Errno × Tx) :
    Prop where
  ext : Extends own own'
  room : Room pi own' r.2.free
  tree : Tree own' r.2.mem pi
  others : ∀ k, k ≠ n → pmfsFindDataBlock r.2.mem pi k = pmfsFindDataBlock s.mem pi k
  frame : ∀ x, x ∉ fields pi → x ∉ newBytes own own' ∪ nodes own → r.2.mem x = s.mem x
  advances : Advances sbi (newBytes own own') 1 s r.2
  done : r.1 = none → pmfsFindDataBlock r.2.mem pi n ≠ 0
  failed : r.1 ≠ none → pmfsFindDataBlock r.2.mem pi n = pmfsFindDataBlock s.mem pi n

/-- What the loop of `pmfs_increase_btree_height` did: the tree below `p` is now below `q`. -/
structure Raised (sbi : SbInfo) (pi l p : ℕ) (own own' : Owner) (s : Tx) (l' q : ℕ) (t : Tx) :
    Prop where
  ext : Extends own own'
  room : Room pi own' t.free
  le : l ≤ l'
  pos : q ≠ 0
  placed : Placed own' t.mem l' q 0
  find : ∀ k < 512 ^ l', findFrom t.mem l' q k = if k < 512 ^ l then findFrom s.mem l p k else 0
  frame : ∀ x, x ∉ counters pi → x ∉ newBytes own own' → t.mem x = s.mem x
  advances : Advances sbi (newBytes own own') 0 s t

variable {sbi : SbInfo} {own own' own'' : Owner} {m : Mem} {pi p q b l l' l'' idx i n x : ℕ}
  {zero : Bool} {s t u : Tx} {r : Option Errno × Tx} {free : List ℕ} {e : Option Errno}

/-! ## More levels -/

theorem Raised.refl (h : s.Logs sbi) (hroom : Room pi own s.free) (hplaced : Placed own s.mem l p 0)
    (hp : p ≠ 0) : Raised sbi pi l p own own s l p s :=
  ⟨.refl, hroom, le_rfl, hp, hplaced, fun k hk => (if_pos hk).symm, fun _ _ _ => rfl, .refl h⟩

theorem Raised.trans (h : Raised sbi pi l p own own' s l' q t)
    (h' : Raised sbi pi l' q own' own'' t l'' i u) : Raised sbi pi l p own own'' s l'' i u := by
  have hnews := newBytes_trans h.ext h'.ext
  refine ⟨h.ext.trans h'.ext, h'.room, h.le.trans h'.le, h'.pos, h'.placed, fun k hk => ?_,
    fun x hc hx => (h'.frame x hc fun hin => hx (hnews.2 hin)).trans
      (h.frame x hc fun hin => hx (hnews.1 hin)),
    (h.advances.mono hnews.1 le_rfl).trans_of_le h'.advances hnews.2⟩
  rw [h'.find k hk]
  by_cases hlt : k < 512 ^ l'
  · rw [if_pos hlt, h.find k hlt]
  · have hle : 512 ^ l ≤ 512 ^ l' := Nat.pow_le_pow_right (by decide) h.le
    rw [if_neg hlt, if_neg (by omega)]

/-- One level more. -/
theorem Took.raise (h : Took sbi pi b s t) (hroom : Room pi own s.free)
    (hplaced : Placed own s.mem l p 0) (hp : p ≠ 0) (hblank : ∀ j < 512, slot t.mem b j = 0) :
    Raised sbi pi l p own (Function.update own b (some (l + 1, 0))) s (l + 1) b
      (t.store fun m => setSlot m b 0 p) := by
  obtain ⟨hnone, hb, hroom'⟩ := @Took.usable _ _ _ _ (l + 1) 0 _ _ h hroom
  have hext : Extends own (Function.update own b (some (l + 1, 0))) := extends_update hnone
  have hself : Function.update own b (some (l + 1, 0)) b = some (l + 1, 0) :=
    Function.update_self ..
  generalize Function.update own b (some (l + 1, 0)) = own' at *
  have hnew : page b ⊆ newBytes own own' := fun x hx => ⟨b, hnone, by simp [hself], hx⟩
  have hout : ∀ x, x ∉ page b → setSlot t.mem b 0 p x = t.mem x := by
    intro x hx
    refine setSlot_of_outside ?_
    by_contra hin
    exact hx ⟨by omega, by omega⟩
  have hkept : ∀ x ∈ nodeBytes own l 0, setSlot t.mem b 0 p x = s.mem x := by
    rintro x ⟨q, hq, hx⟩
    have hold := below_ne_none hq
    have hxb : x ∉ page b := by
      refine page_disjoint (hroom.usable q hold) hb ?_ hx
      rintro rfl
      exact hold hnone
    exact (hout x hxb).trans (h.frame x (notMem_counters (hroom.usable q hold) hx) hxb)
  obtain ⟨hbelow, hfind⟩ := hplaced.congr hext hkept
  have hpsmall := (hroom.usable p (by simp [hplaced.owner])).le
  have hfirst : slot (setSlot t.mem b 0 p) b 0 = p := slot_setSlot (by omega)
  have hrest : ∀ j < 512, j ≠ 0 → slot (setSlot t.mem b 0 p) b j = 0 := fun j hj hne =>
    (slot_setSlot_of_ne hne).trans (hblank j hj)
  refine ⟨hext, hroom', Nat.le_succ l, hb.pos.ne', ⟨hself, fun j hj hne => ?_⟩, fun k hk => ?_,
    fun x hc hx => ?_, (h.advances.mono hnew le_rfl).store fun x hx => ?_⟩
  · by_cases hj0 : j = 0
    · subst hj0
      rw [mem_store, hfirst]
      exact hbelow
    · exact absurd (hrest j hj hj0) hne
  · have hki : k / 512 ^ l < 512 := Nat.div_lt_of_lt_mul (by rwa [pow_succ] at hk)
    rw [mem_store]
    by_cases hlt : k < 512 ^ l
    · have hzero : k / 512 ^ l = 0 := Nat.div_eq_of_lt hlt
      rw [if_pos hlt, findFrom_succ (by rwa [hzero, hfirst]), hzero, hfirst, Nat.mod_eq_of_lt hlt]
      exact hfind k hlt
    · rw [if_neg hlt]
      refine findFrom_of_slot (hrest _ hki fun hzero => hlt ?_)
      exact (Nat.div_eq_zero_iff_lt (Nat.pow_pos (by decide))).mp hzero
  · have hxb : x ∉ page b := fun hin => hx (hnew hin)
    exact (hout x hxb).trans (h.frame x hc hxb)
  · exact .inr (hout x fun hin => hx (hnew hin))

theorem growLoop_spec (h : s.Logs sbi) (hroom : Room pi own s.free)
    (hplaced : Placed own s.mem l p 0) (hp : p ≠ 0) :
    ∃ own' e l' q t, growLoop n l p s = (e, l', q, t) ∧ Raised sbi pi l p own own' s l' q t ∧
      l' ≤ l + n ∧ (e = none → l' = l + n) := by
  induction n generalizing s l p own with
  | zero => exact ⟨own, none, l, p, s, rfl, .refl h hroom hplaced hp, le_rfl, fun _ => rfl⟩
  | succ n ih =>
    rw [growLoop]
    split
    · exact ⟨own, _, l, p, s, rfl, .refl h hroom hplaced hp, by omega, by simp⟩
    · rename_i b t htook
      obtain ⟨htook, hblank⟩ := pmfsNewBlock_spec h htook
      have hraise := htook.raise hroom hplaced hp (hblank rfl)
      obtain ⟨own', e, l', q, u, hloop, hraised, hle, hdone⟩ :=
        ih hraise.advances.logs hraise.room hraise.placed hraise.pos
      exact ⟨own', e, l', q, u, hloop, hraise.trans hraised, by omega,
        fun he => (hdone he).trans (by omega)⟩

/-! ## The inode -/

theorem fields_subset (h : x ∈ fields pi) : pi ≤ x ∧ x < pi + 48 := by
  rcases h with h | h <;> omega

theorem counters_fields (h : x ∈ counters pi) : x ∈ fields pi := by
  rcases h with h | h
  · exact .inl (by omega)
  · exact .inr h

theorem setTree_of_outside {h r : ℕ} (hx : x ∉ fields pi) :
    setHeight (setRoot m pi r) pi h x = m x := by
  rw [setHeight, writeLE_of_outside, setRoot, writeLE_of_outside] <;>
  · by_contra hin
    exact hx (.inl (by omega))

theorem height_setTree {h r : ℕ} (hh : h ≤ 3) : height (setHeight (setRoot m pi r) pi h) pi = h :=
  readLE_writeLE (by omega)

theorem root_setTree {h r : ℕ} (hr : r < 2 ^ 64) :
    root (setHeight (setRoot m pi r) pi h) pi = r := by
  have hroot : root (setRoot m pi r) pi = r := readLE_writeLE hr
  exact (readLE_congr fun x hx hlt => writeLE_of_outside (by omega)).trans hroot

theorem newBytes_apart (hroom : Room pi own' free) (hle : pi ≤ x) (hlt : x < pi + 48) :
    x ∉ newBytes own own' := by
  rintro ⟨p, -, hnew, hin⟩
  have := (hroom.usable p hnew).apart
  obtain ⟨hple, hplt⟩ := hin
  omega

theorem nodes_apart (hroom : Room pi own free) (hle : pi ≤ x) (hlt : x < pi + 48) :
    x ∉ nodes own := by
  rintro ⟨p, j, k, hp, hin⟩
  have := (hroom.usable p (by simp [hp])).apart
  obtain ⟨hple, hplt⟩ := hin
  omega

theorem nodeBytes_subset : nodeBytes own l idx ⊆ nodes own := by
  rintro x ⟨p, ⟨j, k, hp, -⟩, hx⟩
  exact ⟨p, j, k, hp, hx⟩

theorem nodes_extends (h : Extends own own') (h' : Extends own' own'') :
    nodes own' ⊆ newBytes own own'' ∪ nodes own := by
  rintro x ⟨p, j, k, hp, hx⟩
  by_cases hold : own p = none
  · exact .inl ⟨p, hold, h'.ne_none (by simp [hp]), hx⟩
  · exact .inr ⟨p, j, k, (h p hold).symm.trans hp, hx⟩

/-- The tree of an inode that is read from memory with the same fields. -/
theorem tree_congr {m' : Mem}
    (h : ∀ x, pi + 2 ≤ x → x < pi + 16 → x ∉ counters pi → m' x = m x) :
    height m' pi = height m pi ∧ root m' pi = root m pi := by
  refine ⟨readLE_congr fun x hx hlt => h x hx (by omega) ?_,
    readLE_congr fun x hx hlt => h x (by omega) (by omega) ?_⟩ <;>
  · rintro (hc | hc) <;> omega

/-- The tree of an inode stays while the bytes that describe it and its pages of pointers do. -/
theorem Tree.congr {m' : Mem} (h : Tree own m pi)
    (hinode : ∀ x, pi + 2 ≤ x → x < pi + 16 → m' x = m x) (hnodes : ∀ x ∈ nodes own, m' x = m x) :
    Tree own m' pi ∧ ∀ k, pmfsFindDataBlock m' pi k = pmfsFindDataBlock m pi k := by
  obtain ⟨hheight, hroot⟩ := tree_congr fun x hle hlt _ => hinode x hle hlt
  obtain ⟨hplaced, hfind⟩ := h.placed.congr .refl fun x hx => hnodes x (nodeBytes_subset hx)
  refine ⟨⟨by rw [hheight]; exact h.height, by rw [hroot]; exact h.root, by rwa [hheight, hroot]⟩,
    fun k => ?_⟩
  rw [pmfsFindDataBlock, pmfsFindDataBlock, hheight, hroot]
  split
  · rfl
  · exact hfind k (by omega)

/-- A block of the file is the page that `own` says. -/
theorem Tree.own_find {k : ℕ} (h : Tree own m pi) (hk : pmfsFindDataBlock m pi k ≠ 0) :
    own (pmfsFindDataBlock m pi k) = some (0, k) := by
  rw [pmfsFindDataBlock] at hk ⊢
  split at hk
  · exact absurd rfl hk
  · rename_i hlt
    rw [if_neg hlt, h.placed.own_find (by omega) hk, Nat.zero_mul, Nat.zero_add]

/-- The numbers of the blocks of a file have 27 bits. -/
theorem Tree.lt_of_find {k : ℕ} (h : Tree own m pi) (hk : pmfsFindDataBlock m pi k ≠ 0) :
    k < 512 ^ 3 := by
  rw [pmfsFindDataBlock] at hk
  split at hk
  · exact absurd rfl hk
  · have := Nat.pow_le_pow_right (show 0 < 512 by decide) h.height
    omega

theorem Extended.refl (h : s.Logs sbi) (hroom : Room pi own s.free) (htree : Tree own s.mem pi)
    (he : e = none → pmfsFindDataBlock s.mem pi n ≠ 0) : Extended sbi pi n own own s (e, s) :=
  ⟨.refl, hroom, htree, fun _ _ => rfl, fun _ _ _ => rfl, .refl h, he, fun _ => rfl⟩

theorem pmfsIncreaseBtreeHeight_spec (h : s.Logs sbi) (hsaved : Saved sbi pi s)
    (hroom : Room pi own s.free) (htree : Tree own s.mem pi) (hle : height s.mem pi ≤ n)
    (hn : n ≤ 3) :
    ∃ own' e t, pmfsIncreaseBtreeHeight pi n s = (e, t) ∧ Extends own own' ∧ Room pi own' t.free ∧
      Tree own' t.mem pi ∧ (e = none → height t.mem pi = n) ∧
      (∀ k, pmfsFindDataBlock t.mem pi k = pmfsFindDataBlock s.mem pi k) ∧
      (∀ x, x ∉ fields pi → x ∉ newBytes own own' → t.mem x = s.mem x) ∧
      Advances sbi (newBytes own own') 0 s t := by
  obtain ⟨own', e, l, q, t, hloop, hraised, hlen, hdone⟩ :=
    @growLoop_spec sbi own pi _ (height s.mem pi) (n - height s.mem pi) s h hroom htree.placed
      htree.root
  have hl : l ≤ 3 := by omega
  have hq : q < 2 ^ 64 := by
    have := (hraised.room.usable q (by simp [hraised.placed.owner])).le
    omega
  have hnode : ∀ x ∈ nodeBytes own' l 0, setHeight (setRoot t.mem pi q) pi l x = t.mem x := by
    rintro x ⟨p, hp, hx⟩
    refine setTree_of_outside fun hin => ?_
    have := fields_subset hin
    have := (hraised.room.usable p (below_ne_none hp)).apart
    obtain ⟨hple, hplt⟩ := hx
    omega
  obtain ⟨hplaced, hfind⟩ := hraised.placed.congr .refl hnode
  have hcall : pmfsIncreaseBtreeHeight pi n s =
      (e, t.store fun m => setHeight (setRoot m pi q) pi l) := by
    simp only [pmfsIncreaseBtreeHeight, hloop]
  refine ⟨own', e, t.store fun m => setHeight (setRoot m pi q) pi l, hcall, hraised.ext,
    hraised.room, ⟨?_, ?_, ?_⟩, fun he => ?_, fun k => ?_, fun x hx hnew => ?_,
    hraised.advances.store fun x _ => ?_⟩
  · rwa [mem_store, height_setTree hl]
  · rw [mem_store, root_setTree hq]
    exact hraised.pos
  · rwa [mem_store, height_setTree hl, root_setTree hq]
  · rw [mem_store, height_setTree hl, hdone he]
    omega
  · rw [mem_store, pmfsFindDataBlock, pmfsFindDataBlock, height_setTree hl, root_setTree hq]
    by_cases hk : 512 ^ l ≤ k
    · have := Nat.pow_le_pow_right (show 0 < 512 by decide) hraised.le
      rw [if_pos hk, if_pos (by omega)]
    · rw [if_neg hk, hfind k (by omega), hraised.find k (by omega)]
      by_cases hlt : k < 512 ^ height s.mem pi
      · rw [if_pos hlt, if_neg (by omega)]
      · rw [if_neg hlt, if_pos (by omega)]
  · exact (setTree_of_outside hx).trans
      (hraised.frame x (fun hc => hx (counters_fields hc)) hnew)
  · by_cases hx : x ∈ fields pi
    · have := fields_subset hx
      exact .inl (hraised.advances.logged (hsaved x this.1 this.2))
    · exact .inr (setTree_of_outside hx)

/-! ## One block -/

/-- What was allocated in the tree, seen from the inode. -/
theorem Allocated.extended (h : Allocated sbi pi (height s.mem pi) (root s.mem pi) 0 n false own own'
      s r) (htree : Tree own s.mem pi) (hn : n < 512 ^ height s.mem pi) :
    Extended sbi pi n own own' s r := by
  obtain ⟨⟨hext, hroom, hplaced, hothers, hframe⟩, hadv, hdone, hfailed⟩ := h
  have hinode : ∀ x, pi ≤ x → x < pi + 48 → x ∉ counters pi → r.2.mem x = s.mem x :=
    fun x hle hlt hc => hframe x hc (inode_apart hroom hext hle hlt)
  obtain ⟨hheight, hroot⟩ := tree_congr fun x hle hlt hc => hinode x (by omega) (by omega) hc
  have hfind : ∀ k, k < 512 ^ height s.mem pi → (k ≠ n ∨ r.1 ≠ none) →
      pmfsFindDataBlock r.2.mem pi k = pmfsFindDataBlock s.mem pi k := by
    intro k hk hor
    rw [pmfsFindDataBlock, pmfsFindDataBlock, hheight, hroot, if_neg (by omega), if_neg (by omega)]
    by_cases hkn : k = n
    · subst hkn
      exact hfailed (hor.resolve_left (by simp))
    · exact hothers k hk hkn
  refine ⟨hext, hroom, ⟨by rw [hheight]; exact htree.height, by rw [hroot]; exact htree.root,
    by rwa [hheight, hroot]⟩, fun k hkn => ?_, fun x hx hout => ?_, ?_, fun hr => ?_,
    fun hr => hfind n hn (.inr hr)⟩
  · by_cases hk : k < 512 ^ height s.mem pi
    · exact hfind k hk (.inl hkn)
    · rw [pmfsFindDataBlock, pmfsFindDataBlock, hheight, if_pos (by omega), if_pos (by omega)]
  · exact hframe x (fun hc => hx (counters_fields hc)) fun hin =>
      hout (hin.imp_right (@nodeBytes_subset _ _ _ x))
  · refine hadv.mono (fun x hx => ?_) le_rfl
    exact hx.resolve_right fun hf => by simpa using hf.1
  · rw [pmfsFindDataBlock, hheight, hroot, if_neg (by omega)]
    exact hdone hr

theorem lt_pow_levels (n l : ℕ) : n < 512 ^ (l + File.levels (n / 512 ^ l)) := by
  have hlevels : n / 512 ^ l < 512 ^ File.levels (n / 512 ^ l) := File.levels_le_iff.mp le_rfl
  rw [pow_add, Nat.mul_comm]
  exact (Nat.div_lt_iff_lt_mul (Nat.pow_pos (by decide))).mp hlevels

/-- `pmfs_alloc_blocks` for one block of a file that is not empty. -/
theorem pmfsAllocBlocks_spec (h : s.Logs sbi) (hsaved : Saved sbi pi s)
    (hroom : Room pi own s.free) (htree : Tree own s.mem pi) (hpos : 0 < n)
    (hfit : s.trans.numUsed + 1 ≤ s.trans.numEntries) :
    ∃ own', Extended sbi pi n own own' s (pmfsAllocBlocks pi n 1 zero s) := by
  have hlast : n + 1 - 1 = n := by omega
  rw [pmfsAllocBlocks]
  simp only [hlast, htree.root, if_false]
  generalize hnew : (if 512 ^ height s.mem pi ≤ n then
    height s.mem pi + File.levels (n / 512 ^ height s.mem pi) else height s.mem pi) = l
  have hle : height s.mem pi ≤ l := by
    split at hnew <;> omega
  have hlt : n < 512 ^ l := by
    split at hnew
    · rw [← hnew]
      exact lt_pow_levels ..
    · rw [← hnew]
      omega
  by_cases hbig : 512 ^ height s.mem pi ≤ n ∧ 3 < l
  · rw [if_pos hbig]
    exact ⟨own, .refl h hroom htree (by simp)⟩
  have hl : l ≤ 3 := by
    have := htree.height
    split at hnew <;> omega
  have hl0 : l ≠ 0 := by
    rintro rfl
    rw [pow_zero] at hlt
    omega
  rw [if_neg hbig, if_neg hl0]
  have hbelow : ∀ {own : Owner} {s : Tx}, s.Logs sbi → Saved sbi pi s → Room pi own s.free →
      Tree own s.mem pi → s.trans.numUsed + 1 ≤ s.trans.numEntries → height s.mem pi = l →
      ∃ own', Extended sbi pi n own own' s
        (recursiveAllocBlocks pi zero (l - 1) (root s.mem pi) n n false s) := by
    intro own s h hsaved hroom htree hfit hheight
    have hsucc : l - 1 + 1 = l := by omega
    obtain ⟨own', hspec⟩ := @recursiveAllocBlocks_spec sbi own pi (root s.mem pi) (l - 1) 0 n false
      zero s h hsaved hroom (by rw [hsucc, ← hheight]; exact htree.placed) (by rwa [hsucc])
      (by simp) fun _ => hfit
    rw [hsucc, ← hheight] at hspec
    rw [← hheight]
    exact ⟨own', hspec.extended htree (by rwa [hheight])⟩
  by_cases hgrow : height s.mem pi < l
  · rw [if_pos hgrow]
    obtain ⟨own₁, e, t, hcall, hext, hroom₁, htree₁, hdone, hfind, hframe, hadv⟩ :=
      pmfsIncreaseBtreeHeight_spec h hsaved hroom htree hle hl
    rw [hcall]
    cases e with
    | some e =>
      exact ⟨own₁, hext, hroom₁, htree₁, fun k _ => hfind k,
        fun x hx hout => hframe x hx fun hin => hout (.inl hin),
        hadv.mono (fun _ => id) (Nat.zero_le _), by simp, fun _ => hfind n⟩
    | none =>
      obtain ⟨hused, hentries⟩ := hadv.numUsed_le
      obtain ⟨own', hspec⟩ := hbelow hadv.logs (fun x hx hlt => hadv.logged (hsaved x hx hlt)) hroom₁
        htree₁ (by omega) (hdone rfl)
      have hnews := newBytes_trans hext hspec.ext
      refine ⟨own', hext.trans hspec.ext, hspec.room, hspec.tree,
        fun k hk => (hspec.others k hk).trans (hfind k), fun x hx hout => ?_, ?_, hspec.done,
        fun hr => (hspec.failed hr).trans (hfind n)⟩
      · refine (hspec.frame x hx ?_).trans (hframe x hx fun hin => hout (.inl (hnews.1 hin)))
        rintro (hin | hin)
        · exact hout (.inl (hnews.2 hin))
        · exact hout (nodes_extends hext hspec.ext hin)
      · have hsum := (hadv.mono hnews.1 le_rfl).trans_of_le hspec.advances hnews.2
        rwa [Nat.zero_add] at hsum
  · rw [if_neg hgrow]
    exact hbelow h hsaved hroom htree hfit (by omega)

end Wpmfs.Pages
