import Wpmfs.Pages.Tree
import Wpmfs.Pages.Undone

/-!
# Adding a block to a tree

`recursive_alloc_blocks` for one block goes down one path. It fills at most one pointer of a page
that was there before, after telling the journal, and otherwise stores to pages that it has just
allocated and to the inode. All other blocks of the file stay where they are.
-/

namespace Wpmfs.Pages

open Bytes Persist Journal Tx

/-- The bytes of the inode in which blocks are counted and a failure is noted. -/
def counters (pi : ℕ) : Set ℕ := {x | pi + 4 ≤ x ∧ x < pi + 8 ∨ pi + 40 ≤ x ∧ x < pi + 48}

/-- The tree below page `idx` of level `l` grew, and all its blocks but block `n` stay. -/
structure Grew (pi l p idx n : ℕ) (own own' : Owner) (s t : Tx) : Prop where
  ext : Extends own own'
  room : Room pi own' t.free
  placed : Placed own' t.mem l p idx
  others : ∀ k < 512 ^ l, k ≠ n → findFrom t.mem l p k = findFrom s.mem l p k
  frame : ∀ x, x ∉ counters pi → x ∉ newBytes own own' ∪ nodeBytes own l idx → t.mem x = s.mem x

/-- A block was taken from the allocator. -/
structure Took (sbi : SbInfo) (pi b : ℕ) (s t : Tx) : Prop where
  free : s.free = b :: t.free
  advances : Advances sbi (page b) 0 s t
  frame : ∀ x, x ∉ counters pi → x ∉ page b → t.mem x = s.mem x

/-- What a part of the allocation of block `n` did below page `idx` of level `l`. -/
structure Allocated (sbi : SbInfo) (pi l p idx n : ℕ) (newNode : Bool) (own own' : Owner) (s : Tx)
    (r : Option Errno × Tx) : Prop where
  grew : Grew pi l p idx n own own' s r.2
  advances : Advances sbi (newBytes own own' ∪ {x | newNode ∧ x ∈ page p})
    (if newNode then 0 else 1) s r.2
  done : r.1 = none → findFrom r.2.mem l p n ≠ 0
  failed : r.1 ≠ none → findFrom r.2.mem l p n = findFrom s.mem l p n

variable {sbi : SbInfo} {own own' own'' : Owner} {m : Mem} {pi p b l idx i n x : ℕ}
  {newNode zero : Bool} {s t u : Tx} {r : Option Errno × Tx} {free : List ℕ}

/-! ## One pointer -/

theorem counters_subset (h : x ∈ counters pi) : pi ≤ x ∧ x < pi + 48 := by
  rcases h with h | h <;> omega

theorem notMem_counters (hroom : Usable pi p) (hx : x ∈ page p) : x ∉ counters pi := by
  intro hc
  have := counters_subset hc
  have := hroom.apart
  obtain ⟨hle, hlt⟩ := hx
  omega

theorem addressable_page {size : ℕ} (h : Usable pi p) (hi : i < 4096) (hle : i + size ≤ 4096) :
    Addressable sbi (p + i) size := by
  have := h.pos
  have := h.le
  exact Nameable.addressable ⟨.direct (by omega) (by omega), by omega⟩

theorem saveSlots_spec (h : s.Logs sbi) (hp : Usable pi p) (hi : i < 512)
    (hfit : newNode = false → s.trans.numUsed + 1 ≤ s.trans.numEntries) :
    (saveSlots s p i i newNode false).mem = s.mem ∧
    (saveSlots s p i i newNode false).free = s.free ∧
    Advances sbi ∅ (if newNode then 0 else 1) s (saveSlots s p i i newNode false) ∧
    (newNode = false → ∀ x, p + 8 * i ≤ x → x < p + 8 * i + 8 →
      x ∈ (saveSlots s p i i newNode false).logged sbi) := by
  cases newNode with
  | true => exact ⟨rfl, rfl, .refl h, by simp⟩
  | false =>
    have hone : numLes 8 leData = 1 := by decide
    have hsize : (i - i + 1) * 8 = 8 := by omega
    have hrec := h.log (@addressable_page sbi pi p (8 * i) 8 hp (by omega) (by omega))
      (by rw [hone]; exact hfit rfl)
    have hadv : Advances sbi ∅ _ s _ := hrec.advances
    rw [hone] at hadv
    simp only [saveSlots, hsize]
    exact ⟨hrec.mem, hrec.free, hadv, fun _ => hrec.range⟩

theorem Took.usable (h : Took sbi pi b s t) (hroom : Room pi own s.free) :
    own b = none ∧ Usable pi b ∧ Room pi (Function.update own b (some (l, idx))) t.free := by
  have hfree := h.free
  obtain ⟨hnone, hb⟩ := hroom.unused b (by simp [hfree])
  have hnodup := hroom.nodup
  rw [hfree, List.nodup_cons] at hnodup
  refine ⟨hnone, hb, fun q hq => ?_, fun q hq => ?_, hnodup.2⟩
  · by_cases hqb : q = b
    · rwa [hqb]
    · exact hroom.usable q (by rwa [Function.update_of_ne hqb] at hq)
  · have hqb : q ≠ b := by
      rintro rfl
      exact hnodup.1 hq
    rw [Function.update_of_ne hqb]
    exact hroom.unused q (by simp [hfree, hq])

/-- A block that was just taken is hung below pointer `i` of the page. -/
theorem Took.link (h : Took sbi pi b s t) (hroom : Room pi own s.free)
    (hplaced : Placed own s.mem (l + 1) p idx) (hn : n < 512 ^ (l + 1))
    (hslot : slot s.mem p (n / 512 ^ l) = 0) (hblank : l ≠ 0 → ∀ j < 512, slot t.mem b j = 0)
    (hu : u.mem = setSlot t.mem p (n / 512 ^ l) b) (hfree : u.free = t.free) :
    Grew pi (l + 1) p idx n own
      (Function.update own b (some (l, 512 * idx + n / 512 ^ l))) s u ∧
    slot u.mem p (n / 512 ^ l) = b ∧ (l ≠ 0 → ∀ j < 512, slot u.mem b j = 0) := by
  have hi : n / 512 ^ l < 512 := Nat.div_lt_of_lt_mul (by rwa [pow_succ] at hn)
  generalize hidx : n / 512 ^ l = i at *
  obtain ⟨hnone, hb, hroom'⟩ := @Took.usable _ _ _ _ l (512 * idx + i) _ _ h hroom
  have hext : Extends own (Function.update own b (some (l, 512 * idx + i))) :=
    extends_update hnone
  have hp := hroom.usable p (by simp [hplaced.owner])
  have hpb : p ≠ b := by
    rintro rfl
    simp [hplaced.owner] at hnone
  have hself : Function.update own b (some (l, 512 * idx + i)) b = some (l, 512 * idx + i) :=
    Function.update_self ..
  generalize Function.update own b (some (l, 512 * idx + i)) = own' at *
  have hkept : ∀ x, x ∉ counters pi → x ∉ page b → x ∉ page p → u.mem x = s.mem x := by
    intro x hc hxb hxp
    rw [hu, setSlot_of_outside, h.frame x hc hxb]
    by_contra hin
    exact hxp ⟨by omega, by omega⟩
  have hi' : slot u.mem p i = b := by
    rw [hu, slot_setSlot]
    have := hb.le
    omega
  have hother : ∀ j < 512, j ≠ i → slot u.mem p j = slot s.mem p j := by
    intro j hj hji
    rw [hu, slot_setSlot_of_ne hji]
    exact slot_congr hj fun x hx => h.frame x (notMem_counters hp hx) (page_disjoint hp hb hpb hx)
  have hpage : ∀ j < 512, ∀ x ∈ nodeBytes own l (512 * idx + j), u.mem x = s.mem x := by
    rintro j hj x ⟨q, hq, hx⟩
    have hold := below_ne_none hq
    have huse := hroom.usable q hold
    have hqb : q ≠ b := by
      rintro rfl
      exact hold hnone
    have hqp : q ≠ p := by
      rintro rfl
      obtain ⟨j', k, hlev, hle, -⟩ := hq
      rw [hplaced.owner] at hlev
      cases hlev
      omega
    exact hkept x (notMem_counters huse hx) (page_disjoint huse hb hqb hx)
      (page_disjoint huse hp hqp hx)
  have hchild : ∀ j < 512, slot s.mem p j ≠ 0 →
      Placed own' u.mem l (slot s.mem p j) (512 * idx + j) ∧ ∀ k < 512 ^ l,
        findFrom u.mem l (slot s.mem p j) k = findFrom s.mem l (slot s.mem p j) k :=
    fun j hj hne => (hplaced.2 j hj hne).congr hext (hpage j hj)
  have hzero : l ≠ 0 → ∀ j < 512, slot u.mem b j = 0 := by
    intro hl j hj
    rw [← hblank hl j hj, hu]
    refine slot_congr hj fun x hx => setSlot_of_outside ?_
    by_contra hin
    exact page_disjoint hb hp hpb.symm hx ⟨by omega, by omega⟩
  refine ⟨⟨hext, by rwa [hfree], ⟨(hext p (by simp [hplaced.owner])).trans hplaced.owner,
    fun j hj hne => ?_⟩, fun k hk hkn => ?_, fun x hc hx => hkept x hc ?_ ?_⟩, hi', hzero⟩
  · by_cases hji : j = i
    · subst hji
      rw [hi']
      cases l with
      | zero => exact hself
      | succ l => exact ⟨hself, fun j hj hne => absurd (hzero (by simp) j hj) hne⟩
    · rw [hother j hj hji] at hne ⊢
      exact (hchild j hj hne).1
  · have hki : k / 512 ^ l < 512 := Nat.div_lt_of_lt_mul (by rwa [pow_succ] at hk)
    by_cases hsame : k / 512 ^ l = i
    · -- the new page has no blocks below it
      cases l with
      | zero => simp at hsame hidx; omega
      | succ l =>
        have hb0 : slot u.mem p (k / 512 ^ (l + 1)) ≠ 0 := by
          rw [hsame, hi']
          exact hb.pos.ne'
        have hlast : k % 512 ^ (l + 1) / 512 ^ l < 512 := by
          refine Nat.div_lt_of_lt_mul ?_
          rw [← pow_succ]
          exact Nat.mod_lt _ (Nat.pow_pos (by decide))
        have hempty : findFrom u.mem (l + 1) b (k % 512 ^ (l + 1)) = 0 :=
          findFrom_of_slot (hzero l.succ_ne_zero _ hlast)
        have hnone : findFrom s.mem (l + 2) p k = 0 := findFrom_of_slot (hsame ▸ hslot)
        rw [findFrom_succ hb0, hsame, hi', hempty, hnone]
    · by_cases hne : slot s.mem p (k / 512 ^ l) = 0
      · rw [findFrom_of_slot hne, findFrom_of_slot ((hother _ hki hsame).trans hne)]
      · rw [findFrom_succ hne, findFrom_succ (by rwa [hother _ hki hsame]), hother _ hki hsame]
        exact (hchild _ hki hne).2 _ (Nat.mod_lt _ (by positivity))
  · exact fun hin => hx (.inl ⟨b, hnone, by simp [hself], hin⟩)
  · exact fun hin => hx (.inr ⟨p, below_self hplaced.owner, hin⟩)

theorem Grew.refl (hroom : Room pi own s.free) (hplaced : Placed own s.mem l p idx) :
    Grew pi l p idx n own own s s :=
  ⟨.refl, hroom, hplaced, fun _ _ _ => rfl, fun _ _ _ => rfl⟩

theorem Grew.trans (h : Grew pi l p idx n own own' s t) (h' : Grew pi l p idx n own' own'' t u) :
    Grew pi l p idx n own own'' s u := by
  refine ⟨h.ext.trans h'.ext, h'.room, h'.placed,
    fun k hk hkn => (h'.others k hk hkn).trans (h.others k hk hkn), fun x hc hx => ?_⟩
  have hnew := newBytes_trans h.ext h'.ext
  refine (h'.frame x hc ?_).trans (h.frame x hc fun hin => hx (hin.imp_left (@hnew.1 x)))
  rintro (hin | hin)
  · exact hx (.inl (hnew.2 hin))
  · exact hx (nodeBytes_extends h.ext h'.ext hin)

/-- A page is not one of those below its own pointers. -/
theorem top_apart (hroom : Room pi own' free) (hext : Extends own own')
    (hp : own p = some (l + 1, idx)) (hx : x ∈ page p) (j : ℕ) :
    x ∉ newBytes own own' ∪ nodeBytes own l j := by
  have hold : own p ≠ none := by simp [hp]
  have huse := hroom.usable p (hext.ne_none hold)
  rintro (⟨q, hnone, hnew, hin⟩ | ⟨q, hq, hin⟩)
  · refine page_disjoint huse (hroom.usable q hnew) ?_ hx hin
    rintro rfl
    exact hold hnone
  · refine page_disjoint huse (hroom.usable q (hext.ne_none (below_ne_none hq))) ?_ hx hin
    rintro rfl
    obtain ⟨j', k, hlev, hle, -⟩ := hq
    rw [hp] at hlev
    cases hlev
    omega

/-- What grew below one pointer of a page. -/
theorem Grew.lift (hplaced : Placed own s.mem (l + 1) p idx) (hn : n < 512 ^ (l + 1))
    (hne : slot s.mem p (n / 512 ^ l) ≠ 0)
    (h : Grew pi l (slot s.mem p (n / 512 ^ l)) (512 * idx + n / 512 ^ l) (n % 512 ^ l) own own'
      s t) :
    Grew pi (l + 1) p idx n own own' s t ∧
    slot t.mem p (n / 512 ^ l) = slot s.mem p (n / 512 ^ l) := by
  have hi : n / 512 ^ l < 512 := Nat.div_lt_of_lt_mul (by rwa [pow_succ] at hn)
  have hnk : ∀ k, k / 512 ^ l = n / 512 ^ l → k ≠ n → k % 512 ^ l ≠ n % 512 ^ l := by
    intro k hdiv hkn hmod
    apply hkn
    rw [← Nat.div_add_mod k (512 ^ l), hdiv, hmod, Nat.div_add_mod]
  generalize n / 512 ^ l = i at *
  have hpage : ∀ x ∈ page p, t.mem x = s.mem x := fun x hx =>
    h.frame x (notMem_counters (h.room.usable p (by simp [h.ext p, hplaced.owner])) hx)
      (top_apart h.room h.ext hplaced.owner hx _)
  have hchild : ∀ j < 512, j ≠ i → slot s.mem p j ≠ 0 →
      Placed own' t.mem l (slot s.mem p j) (512 * idx + j) ∧ ∀ k < 512 ^ l,
        findFrom t.mem l (slot s.mem p j) k = findFrom s.mem l (slot s.mem p j) k := by
    intro j hj hji hne
    refine (hplaced.2 j hj hne).congr h.ext fun x hx => ?_
    obtain ⟨q, hq, hin⟩ := hx
    exact h.frame x (notMem_counters (h.room.usable q (h.ext.ne_none (below_ne_none hq))) hin)
      (apart_of_ne h.room h.ext hji hq hin)
  have hslot : ∀ j < 512, slot t.mem p j = slot s.mem p j := fun j hj => slot_congr hj hpage
  refine ⟨⟨h.ext, h.room, ⟨(h.ext p (by simp [hplaced.owner])).trans hplaced.owner,
    fun j hj hne => ?_⟩, fun k hk hkn => ?_, fun x hc hx => h.frame x hc fun hin =>
      hx (hin.imp_right (@nodeBytes_child _ _ _ _ hi x))⟩, hslot i hi⟩
  · rw [hslot j hj] at hne ⊢
    by_cases hji : j = i
    · subst hji
      exact h.placed
    · exact (hchild j hj hji hne).1
  · have hki : k / 512 ^ l < 512 := Nat.div_lt_of_lt_mul (by rwa [pow_succ] at hk)
    by_cases hzero : slot s.mem p (k / 512 ^ l) = 0
    · rw [findFrom_of_slot hzero, findFrom_of_slot ((hslot _ hki).trans hzero)]
    · rw [findFrom_succ hzero, findFrom_succ (by rwa [hslot _ hki]), hslot _ hki]
      have hlt : k % 512 ^ l < 512 ^ l := Nat.mod_lt _ (by positivity)
      by_cases hki' : k / 512 ^ l = i
      · rw [hki']
        exact h.others _ hlt (hnk k hki' hkn)
      · exact (hchild _ hki hki' hzero).2 _ hlt

/-! ## The allocator -/

theorem pmfsNewBlock_spec (h : s.Logs sbi) (hnew : pmfsNewBlock zero s = some (b, t)) :
    Took sbi pi b s t ∧ (zero = true → ∀ j < 512, slot t.mem b j = 0) := by
  rw [pmfsNewBlock] at hnew
  split at hnew
  · cases hnew
  · rename_i free hfree
    cases hnew
    have hin : ∀ x, x ∉ page b → (if zero = true then zeroBlock s.image.mem b else s.image.mem) x =
        s.image.mem x := by
      intro x hx
      split
      · exact zeroBlock_of_notMem hx
      · rfl
    refine ⟨⟨hfree, ?_, fun x _ hx => hin x hx⟩, fun hz j hj => ?_⟩
    · have hadv : Advances sbi (page b) 0 s
          (s.store fun m => if zero = true then zeroBlock m b else m) :=
        (Advances.refl h).store fun x hx => .inr (hin x hx)
      exact ⟨hadv.logs, hadv.trans, hadv.logged, hadv.undone⟩
    · subst hz
      exact slot_zeroBlock hj

theorem pmfsNewBlock_eq_none (h : pmfsNewBlock zero s = none) : s.free = [] := by
  rw [pmfsNewBlock] at h
  split at h
  · assumption
  · cases h

/-- The inode is in the log. -/
def Saved (sbi : SbInfo) (pi : ℕ) (s : Tx) : Prop := ∀ x, pi ≤ x → x < pi + 48 → x ∈ s.logged sbi

theorem Saved.mono (h : Saved sbi pi s) (hlogged : s.logged sbi ⊆ t.logged sbi) :
    Saved sbi pi t := fun x hle hlt => hlogged (h x hle hlt)

theorem pmfsNewDataBlock_spec (h : s.Logs sbi) (hsaved : Saved sbi pi s)
    (hnew : pmfsNewDataBlock pi zero s = some (b, t)) : Took sbi pi b s t := by
  rw [pmfsNewDataBlock, Option.map_eq_some_iff] at hnew
  obtain ⟨⟨c, t'⟩, hnew, heq⟩ := hnew
  cases heq
  obtain ⟨⟨hfree, hadv, hframe⟩, -⟩ := pmfsNewBlock_spec h hnew
  have hcount : ∀ x, x ∉ counters pi → setIBlocks t'.mem pi (iBlocks t'.mem pi + 1) x = t'.mem x := by
    intro x hx
    refine writeLE_of_outside ?_
    by_contra hin
    exact hx (.inr (by omega))
  refine ⟨hfree, hadv.store fun x _ => ?_, fun x hc hx => (hcount x hc).trans (hframe x hc hx)⟩
  by_cases hx : x ∈ counters pi
  · have := counters_subset hx
    exact .inl (hadv.logged (hsaved x this.1 this.2))
  · exact .inr (hcount x hx)

/-! ## One path -/

theorem recursiveAllocBlocks_zero :
    recursiveAllocBlocks pi zero 0 p n n newNode s =
      if slot s.mem p (n / 512 ^ 0) = 0 then
        match pmfsNewDataBlock pi zero s with
        | none => (some .enospc, s.store fun m => setIFlags m pi (iFlags m pi ||| pmfsEofblocksFl))
        | some (b, t) =>
          (none, (saveSlots t p (n / 512 ^ 0) (n / 512 ^ 0) newNode false).store fun m =>
            setSlot m p (n / 512 ^ 0) b)
      else (none, s) := by
  rw [recursiveAllocBlocks, Nat.add_sub_cancel_left, allocSlots]
  grind [allocSlots]

theorem recursiveAllocBlocks_succ :
    recursiveAllocBlocks pi zero (l + 1) p n n newNode s =
      if slot s.mem p (n / 512 ^ (l + 1)) = 0 then
        match pmfsNewBlock true s with
        | none => (some .enospc, s)
        | some (b, t) =>
          recursiveAllocBlocks pi zero l b (n % 512 ^ (l + 1)) (n % 512 ^ (l + 1)) true
            ((saveSlots t p (n / 512 ^ (l + 1)) (n / 512 ^ (l + 1)) newNode false).store fun m =>
              setSlot m p (n / 512 ^ (l + 1)) b)
      else
        recursiveAllocBlocks pi zero l (slot s.mem p (n / 512 ^ (l + 1))) (n % 512 ^ (l + 1))
          (n % 512 ^ (l + 1)) newNode s := by
  rw [recursiveAllocBlocks, Nat.add_sub_cancel_left]
  simp only [allocSlots, if_true, Nat.succ_ne_zero, if_false]
  grind

/-- A block that was just taken is hung below a pointer of the page, which is logged before. -/
theorem Took.hang (h : Took sbi pi b s t) (hroom : Room pi own s.free)
    (hplaced : Placed own s.mem (l + 1) p idx) (hn : n < 512 ^ (l + 1))
    (hslot : slot s.mem p (n / 512 ^ l) = 0) (hblank : l ≠ 0 → ∀ j < 512, slot t.mem b j = 0)
    (hfit : newNode = false → s.trans.numUsed + 1 ≤ s.trans.numEntries) :
    ∃ own' u, (saveSlots t p (n / 512 ^ l) (n / 512 ^ l) newNode false).store
        (fun m => setSlot m p (n / 512 ^ l) b) = u ∧
      Grew pi (l + 1) p idx n own own' s u ∧ slot u.mem p (n / 512 ^ l) = b ∧ b ≠ 0 ∧
      own b = none ∧ (l ≠ 0 → ∀ j < 512, slot u.mem b j = 0) ∧
      Advances sbi (newBytes own own' ∪ {x | newNode ∧ x ∈ page p}) (if newNode then 0 else 1)
        s u := by
  have hi : n / 512 ^ l < 512 := Nat.div_lt_of_lt_mul (by rwa [pow_succ] at hn)
  obtain ⟨hnone, hb, -⟩ := @Took.usable _ _ _ _ l (512 * idx + n / 512 ^ l) _ _ h hroom
  have hp := hroom.usable p (by simp [hplaced.owner])
  have hused := h.advances.numUsed_le
  have hfit' : newNode = false → t.trans.numUsed + 1 ≤ t.trans.numEntries := by
    intro hf
    have := hfit hf
    omega
  obtain ⟨hmem, hfree, hadv, hlogged⟩ := saveSlots_spec h.advances.logs hp hi hfit'
  obtain ⟨hgrew, hat, hzero⟩ := h.link hroom hplaced hn hslot hblank
    (u := (saveSlots t p (n / 512 ^ l) (n / 512 ^ l) newNode false).store fun m =>
      setSlot m p (n / 512 ^ l) b) (by rw [mem_store, hmem]) hfree
  refine ⟨_, _, rfl, hgrew, hat, hb.pos.ne', hnone, hzero, ?_⟩
  have hnew : page b ⊆ newBytes own
      (Function.update own b (some (l, 512 * idx + n / 512 ^ l))) :=
    fun x hx => ⟨b, hnone, by simp, hx⟩
  have hboth := (h.advances.mono (fun x hx => .inl (hnew hx)) le_rfl).trans_of_le hadv
    (Set.empty_subset (newBytes own
      (Function.update own b (some (l, 512 * idx + n / 512 ^ l))) ∪ {x | newNode ∧ x ∈ page p}))
  rw [Nat.zero_add] at hboth
  refine hboth.store fun x hx => ?_
  by_cases hin : p + 8 * (n / 512 ^ l) ≤ x ∧ x < p + 8 * (n / 512 ^ l) + 8
  · refine .inl (hlogged ?_ x hin.1 hin.2)
    by_contra hf
    exact hx (.inr ⟨by simpa using hf, by omega, by omega⟩)
  · exact .inr (setSlot_of_outside (by omega))

/-- Block `n` gets allocated below the page, or there is no block left for it. The induction is on
the level; below a page that was just allocated nothing is logged. -/
theorem recursiveAllocBlocks_spec (h : s.Logs sbi) (hsaved : Saved sbi pi s)
    (hroom : Room pi own s.free) (hplaced : Placed own s.mem (l + 1) p idx)
    (hn : n < 512 ^ (l + 1)) (hnew : newNode = true → ∀ j < 512, slot s.mem p j = 0)
    (hfit : newNode = false → s.trans.numUsed + 1 ≤ s.trans.numEntries) :
    ∃ own', Allocated sbi pi (l + 1) p idx n newNode own own' s
      (recursiveAllocBlocks pi zero l p n n newNode s) := by
  induction l generalizing s p idx n newNode own with
  | zero =>
    rw [recursiveAllocBlocks_zero]
    by_cases hslot : slot s.mem p (n / 512 ^ 0) = 0
    · rw [if_pos hslot]
      split
      · -- the failure is noted in the inode
        have hkept : ∀ x, x ∉ counters pi →
            setIFlags s.mem pi (iFlags s.mem pi ||| pmfsEofblocksFl) x = s.mem x := by
          intro x hx
          refine writeLE_of_outside ?_
          by_contra hin
          exact hx (.inl (by omega))
        have hnode : ∀ x ∈ nodeBytes own 1 idx,
            setIFlags s.mem pi (iFlags s.mem pi ||| pmfsEofblocksFl) x = s.mem x := by
          rintro x ⟨q, hq, hx⟩
          exact hkept x (notMem_counters (hroom.usable q (below_ne_none hq)) hx)
        have hadv : Advances sbi (newBytes own own ∪ {x | newNode ∧ x ∈ page p})
            (if newNode then 0 else 1) s
            (s.store fun m => setIFlags m pi (iFlags m pi ||| pmfsEofblocksFl)) := by
          refine (Advances.refl h).store fun x _ => ?_
          by_cases hx : x ∈ counters pi
          · have := counters_subset hx
            exact .inl (hsaved x this.1 this.2)
          · exact .inr (hkept x hx)
        obtain ⟨hplaced', hfind⟩ := hplaced.congr .refl hnode
        exact ⟨own, ⟨.refl, hroom, hplaced', fun k hk _ => hfind k hk, fun x hc _ => hkept x hc⟩,
          hadv, by simp, fun _ => hfind n hn⟩
      · rename_i b t htook
        obtain ⟨own', u, hu, hgrew, hat, hb, -, -, hadv⟩ :=
          (pmfsNewDataBlock_spec h hsaved htook).hang hroom hplaced hn hslot (by simp) hfit
        rw [hu]
        refine ⟨own', hgrew, hadv, fun _ => ?_, by simp⟩
        rw [findFrom_succ (by rwa [hat]), hat]
        exact hb
    · rw [if_neg hslot]
      refine ⟨own, .refl hroom hplaced, .refl h, fun _ => ?_, by simp⟩
      rw [findFrom_succ hslot]
      exact hslot
  | succ l ih =>
    have hi : n / 512 ^ (l + 1) < 512 := Nat.div_lt_of_lt_mul (by rwa [pow_succ] at hn)
    have hlt : n % 512 ^ (l + 1) < 512 ^ (l + 1) := Nat.mod_lt _ (Nat.pow_pos (by decide))
    rw [recursiveAllocBlocks_succ]
    by_cases hslot : slot s.mem p (n / 512 ^ (l + 1)) = 0
    · rw [if_pos hslot]
      split
      · exact ⟨own, .refl hroom hplaced, .refl h, by simp, fun _ => rfl⟩
      · rename_i b t htook
        obtain ⟨htook, hblank⟩ := pmfsNewBlock_spec h htook
        obtain ⟨own₁, u, hu, hgrew, hat, hb, hnone, hzero, hadv⟩ :=
          htook.hang hroom hplaced hn hslot (fun _ => hblank rfl) hfit
        rw [hu]
        have hsub : Placed own₁ u.mem (l + 1) b (512 * idx + n / 512 ^ (l + 1)) := by
          have := hgrew.placed.2 _ hi (by rwa [hat])
          rwa [hat] at this
        have hempty : findFrom u.mem (l + 1) b (n % 512 ^ (l + 1)) = 0 :=
          findFrom_of_slot (hzero l.succ_ne_zero _
            (Nat.div_lt_of_lt_mul (by rwa [pow_succ] at hlt ⊢)))
        have hquiet : true = false → u.trans.numUsed + 1 ≤ u.trans.numEntries := by simp
        obtain ⟨own', hrec⟩ := ih hadv.logs (fun x hle hx => hadv.logged (hsaved x hle hx))
          hgrew.room hsub hlt (fun _ => hzero l.succ_ne_zero) hquiet
        generalize recursiveAllocBlocks pi zero l b (n % 512 ^ (l + 1)) (n % 512 ^ (l + 1)) true u =
          r at hrec ⊢
        have hne : slot u.mem p (n / 512 ^ (l + 1)) ≠ 0 := by rwa [hat]
        obtain ⟨hlift, hkeep⟩ := Grew.lift hgrew.placed hn hne (by rw [hat]; exact hrec.grew)
        rw [hat] at hkeep
        have hboth := hgrew.trans hlift
        have hnews := newBytes_trans hgrew.ext hlift.ext
        have hpage : page b ⊆ newBytes own own' := fun x hx =>
          ⟨b, hnone, hlift.ext.ne_none (by simp [hsub.owner]), hx⟩
        refine ⟨own', hboth, ?_, fun hr => ?_, fun hr => ?_⟩
        · have hmono : Advances sbi (newBytes own own' ∪ {x | newNode ∧ x ∈ page p}) _ s u :=
            hadv.mono (fun x hx => hx.imp_left (@hnews.1 x)) le_rfl
          have hsum := hmono.trans_of_le hrec.advances fun x hx => by
            rcases hx with hx | ⟨-, hx⟩
            · exact .inl (hnews.2 hx)
            · exact .inl (hpage hx)
          simpa only [if_true, Nat.add_zero] using hsum
        · rw [findFrom_succ (by rwa [hkeep]), hkeep]
          exact hrec.done hr
        · rw [findFrom_succ (by rwa [hkeep]), hkeep, hrec.failed hr, hempty, findFrom_of_slot hslot]
    · rw [if_neg hslot]
      obtain rfl : newNode = false := by
        by_contra hf
        exact hslot (hnew (by simpa using hf) _ hi)
      obtain ⟨own', hrec⟩ := ih h hsaved hroom (hplaced.2 _ hi hslot) hlt (by simp) hfit
      generalize recursiveAllocBlocks pi zero l (slot s.mem p (n / 512 ^ (l + 1)))
        (n % 512 ^ (l + 1)) (n % 512 ^ (l + 1)) false s = r at hrec ⊢
      obtain ⟨hlift, hkeep⟩ := Grew.lift hplaced hn hslot hrec.grew
      have hne : slot r.2.mem p (n / 512 ^ (l + 1)) ≠ 0 := by rwa [hkeep]
      refine ⟨own', hlift, hrec.advances.mono (fun x hx => ?_) le_rfl, fun hr => ?_, fun hr => ?_⟩
      · exact hx.imp_right fun hf => by simpa using hf.1
      · rw [findFrom_succ hne, hkeep]
        exact hrec.done hr
      · rw [findFrom_succ hne, hkeep, hrec.failed hr, findFrom_succ hslot]

end Wpmfs.Pages
