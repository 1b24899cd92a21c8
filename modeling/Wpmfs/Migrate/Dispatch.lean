import Wpmfs.Migrate.Conserve
import Wpmfs.Migrate.Tree

/-!
# The dispatch of hot pages

The bottom half of the interrupt takes the numbers of hot pages from a queue and calls the migration
of their kind. In the `switch` of `_wear_lerveling` the `break` of the first case is inside of its
`if`: with the migration of mapped pages switched off, the page of a file goes on to the case of
pages behind a mapping table.
-/

namespace Wpmfs.Migrate

open Balloc Vmap

inductive PageType where
  | rmap
  | vmap
  | stranded
deriving DecidableEq, Repr

namespace Fs

/-- `_page_type`. -/
def pageType (s : Fs) (b : ℕ) : PageType :=
  if s.mapping b ≠ none then .rmap
  else if (s.sb.marks b).pageVmap then .vmap
  else .stranded

/-- The function that the `switch` of `_wear_lerveling` calls, by its mechanism. -/
def wearLerveling (wlSwitch : Int32) (s : Fs) (b : ℕ) : Option PageType :=
  let caseVmap := if wlSwitch &&& 0x2 ≠ 0 then some .vmap else none
  match s.pageType b with
  -- without the `break`
  | .rmap => if wlSwitch &&& 0x1 ≠ 0 then some .rmap else caseVmap
  | .vmap => caseVmap
  | .stranded => if wlSwitch &&& 0x4 ≠ 0 then some .stranded else none

/-- The function to be called for the page of the block `b`, in a turn of the loop of
`_int_bottom`. -/
def intBottom (wlSwitch : Int32) (s : Fs) (b : ℕ) : Option PageType :=
  if (s.sb.marks b).pageUsing then s.wearLerveling wlSwitch b else none

/-- The call; `none` is a bad pointer, or a bad store in the allocator. -/
def level (o o' : Surroundings) (junk : ℕ) (s : Fs) (b : ℕ) : Option PageType → Option Fs
  | none => some s
  | some .rmap => s.levelTypeRmap o o' junk b
  | some .vmap => (s.sb.levelTypeVmap o o' b).map s.setSb
  | some .stranded => some (Migration.levelTypeStranded s b)

end Fs

/-- The mapping tables and the page tables, the page marks, and the blocks with the trees in them
are as before. -/
structure Unchanged (sb t : Sb) : Prop where
  area : t.area = sb.area
  marks : t.marks = sb.marks
  words : t.words = sb.words

/-- A hot page gets the migration that fits: that of pages behind a mapping table only if it is
marked as one; and nothing happens to the page of a file while mapped pages are not migrated. -/
structure Fits (wlSwitch : Int32) (s : Fs) (b : ℕ) : Prop where
  marked : s.intBottom wlSwitch b = some .vmap → (s.sb.marks b).pageVmap = true
  off : s.mapping b ≠ none → wlSwitch &&& 0x1 = 0 → ∀ o o' junk, ∃ t,
    s.level o o' junk b (s.intBottom wlSwitch b) = some t ∧ t.inode = s.inode ∧
      Unchanged s.sb t.sb

/-- All that the migration of `b` to `q` writes to marks, tables and blocks is there already. -/
structure InPlace (sb : Sb) (b q : ℕ) : Prop where
  marks : sb.marks q = sb.marks b
  slot : ∀ c, (sb.area (Sb.regionOf (sb.marks b))).pte (sb.pageIndex b) = some c →
    c = q ∧ (sb.area (Sb.regionOf (sb.marks b))).slot (sb.pageIndex b) = q ∧
      (∀ j, Area.line (Sb.regionOf (sb.marks b)) j =
          Area.line (Sb.regionOf (sb.marks b)) (sb.pageIndex b) →
        (sb.area (Sb.regionOf (sb.marks b))).flushed j =
          (sb.area (Sb.regionOf (sb.marks b))).slot j) ∧
      sb.words q = sb.words b

/-- The migration of the page of the block `b` behind a mapping table changes nothing: the allocator
says `-ENOMEM`, or it is the range-list allocator and there is nothing new to write. A full range
list says `-ENOSPC`, after which the page takes its own place. -/
def Idle (sb : Sb) (b : ℕ) : Prop :=
  ∀ o, match (sb.newBlock o).1 with
    | .ok q => sb.alloc.isWear = false ∧ InPlace sb b q
    | .error .enomem => True
    | .error .enospc => InPlace sb b b

variable {s : Fs} {sb t u : Sb} {o o' : Surroundings} {b q k lo hi : ℕ} {r : Region}
  {wlSwitch : Int32}

/-! ## Where a migration changes nothing -/

theorem setSlot_eq_iff {m : Area} : ((m.setSlot k q).flushSlot r k).setPte k q = m ↔
    m.pte k = some q ∧ m.slot k = q ∧
      ∀ j, Area.line r j = Area.line r k → m.flushed j = m.slot j := by
  constructor
  · intro h
    have hpte : m.pte k = some q := by
      rw [← congrFun (congrArg Area.pte h) k]
      exact Function.update_self ..
    have hslot : m.slot k = q := by
      rw [← congrFun (congrArg Area.slot h) k]
      exact Function.update_self ..
    refine ⟨hpte, hslot, fun j hj => ?_⟩
    rw [← congrFun (congrArg Area.flushed h) j, ← congrFun (congrArg Area.slot h) j]
    exact if_pos hj
  · rintro ⟨hpte, rfl, hflushed⟩
    have hslot : Function.update m.slot k (m.slot k) = m.slot := Function.update_eq_self ..
    have hpte' : Function.update m.pte k (some (m.slot k)) = m.pte := by
      rw [← hpte, Function.update_eq_self]
    have hkept : (fun j => if Area.line r j = Area.line r k then m.slot j else m.flushed j) =
        m.flushed := by
      funext j
      split
      · exact (hflushed j (by assumption)).symm
      · rfl
    simp only [Area.setSlot, Area.flushSlot, Area.setPte, hslot, hpte', hkept]

/-- The range list takes a block back, and nothing else changes. -/
theorem exists_freeBlock (hinv : u.alloc.Inv lo hi) (hkind : u.alloc.isWear = false)
    (hb : u.alloc.InUse b) : ∃ t, u.freeBlock o b = some t ∧ t.area = u.area ∧
      t.marks = u.marks ∧ t.words = u.words := by
  cases halloc : u.alloc with
  | wear r =>
    rw [halloc] at hkind
    cases hkind
  | ranges r marks =>
    rw [halloc] at hinv hb
    obtain ⟨a, ha, hspec⟩ := Factory.ranges_freeBlock (o := o) hinv hb
    have hmarks : a.pageMarks = u.alloc.pageMarks := by
      rw [halloc]
      rcases hspec with hspec | ⟨-, hspec⟩
      · exact hspec.marks.trans (Function.update_eq_self b _)
      · exact hspec.marks
    refine ⟨{ u with alloc := a }, ?_, rfl, hmarks, rfl⟩
    rw [Sb.freeBlock, halloc, ha]
    rfl

theorem unchanged_freeBlock_iff (hinv : u.alloc.Inv lo hi) (hkind : u.alloc.isWear = false)
    (hb : u.alloc.InUse b) :
    (∃ t, u.freeBlock o b = some t ∧ Unchanged sb t) ↔ Unchanged sb u := by
  obtain ⟨t, hfree, harea, hmarks, hwords⟩ := exists_freeBlock (o := o) hinv hkind hb
  constructor
  · rintro ⟨t', hfree', h⟩
    obtain rfl := Option.some.inj (hfree.symm.trans hfree')
    exact ⟨harea.symm.trans h.area, hmarks.symm.trans h.marks, hwords.symm.trans h.words⟩
  · intro h
    exact ⟨t, hfree, harea.trans h.area, hmarks.trans h.marks, hwords.trans h.words⟩

theorem migrateTo_unchanged_iff (hinv : sb.alloc.Inv lo hi) (hkind : sb.alloc.isWear = false)
    (hb : sb.alloc.InUse b) :
    (∃ t, sb.migrateTo o b q = some t ∧ Unchanged sb t) ↔ InPlace sb b q := by
  have hmarks : (sb.inherit b q).marks = Function.update sb.marks q (sb.marks b) := by
    funext x
    exact congrFun Factory.markPage_pageMarks x
  have hself : (sb.inherit b q).marks b = sb.marks b := by
    rw [hmarks]
    by_cases hbq : b = q <;> simp [hbq]
  have hindex : (sb.inherit b q).pageIndex b = sb.pageIndex b := by
    by_cases hbq : b = q <;> simp [Sb.inherit, hbq]
  have hmarks' : (sb.inherit b q).marks = sb.marks ↔ sb.marks q = sb.marks b := by
    rw [hmarks, Function.update_eq_self_iff]
    exact eq_comm
  have hinv' : (sb.inherit b q).alloc.Inv lo hi := hinv.markPage
  have hkind' : (sb.inherit b q).alloc.isWear = false := Factory.markPage_isWear.trans hkind
  have hb' : (sb.inherit b q).alloc.InUse b := Factory.markPage_inUse.mpr hb
  have harea : (sb.inherit b q).area = sb.area := rfl
  unfold Sb.migrateTo
  simp only [hself, hindex, harea]
  cases hpte : (sb.area (Sb.regionOf (sb.marks b))).pte (sb.pageIndex b) with
  | none =>
    dsimp only
    rw [unchanged_freeBlock_iff hinv' hkind' hb']
    constructor
    · intro h
      exact ⟨hmarks'.1 h.marks, fun c hc => by simp [hpte] at hc⟩
    · intro h
      exact ⟨rfl, hmarks'.2 h.marks, rfl⟩
  | some c =>
    dsimp only
    rw [unchanged_freeBlock_iff (u := (sb.inherit b q).moveSlot _ _ b q) hinv' hkind' hb']
    constructor
    · intro h
      have hslot := setSlot_eq_iff.1 ((Function.update_self ..).symm.trans (congrFun h.area _))
      refine ⟨hmarks'.1 h.marks, fun c' hc' => ⟨?_, hslot.2.1, hslot.2.2, ?_⟩⟩
      · exact Option.some.inj (hc'.symm.trans hslot.1)
      · have hwords := congrFun h.words q
        simp only [Sb.moveSlot, Sb.inherit] at hwords
        split at hwords
        · rw [‹q = b›]
        · rw [← hwords, Function.update_self]
    · intro h
      obtain ⟨rfl, hslot, hflushed, hwords⟩ := h.slot c hpte
      refine ⟨?_, hmarks'.2 h.marks, ?_⟩
      · have hsame := setSlot_eq_iff.2 ⟨hpte, hslot, hflushed⟩
        refine (congrArg (Function.update sb.area _) hsame).trans (Function.update_eq_self ..)
      · simp only [Sb.moveSlot, Sb.inherit]
        split
        · rfl
        · rw [← hwords, Function.update_eq_self]

/-- The allocator changes, but not the marks. -/
theorem migrateTo_alloc_iff {a : Factory} (hmarks : a.pageMarks = sb.alloc.pageMarks)
    (hinv : a.Inv lo hi) (hkind : a.isWear = false) (hb : a.InUse b) :
    (∃ t, Sb.migrateTo o { sb with alloc := a } b q = some t ∧ Unchanged sb t) ↔
      InPlace sb b q := by
  have hsame : Sb.marks { sb with alloc := a } = sb.marks := hmarks
  have hiff := @migrateTo_unchanged_iff { sb with alloc := a } o b q lo hi hinv hkind hb
  have hplace : InPlace { sb with alloc := a } b q ↔ InPlace sb b q := by
    constructor
    · intro h
      have hmarks := h.marks
      have hslot := h.slot
      rw [hsame] at hmarks hslot
      exact ⟨hmarks, hslot⟩
    · intro h
      refine ⟨?_, ?_⟩ <;> rw [hsame]
      · exact h.marks
      · exact h.slot
  rw [← hplace, ← hiff]
  refine exists_congr fun t => and_congr_right fun _ => ⟨?_, ?_⟩
  · intro h
    exact ⟨h.area, h.marks.trans hsame.symm, h.words⟩
  · intro h
    exact ⟨h.area, h.marks.trans hsame, h.words⟩

/-- The wear-aware allocator takes all marks but `WPMFS_PAGE_USING` from the page that moved. -/
theorem migrateTo_marks (hinv : sb.alloc.Inv lo hi) (hkind : sb.alloc.isWear = true)
    (hb : sb.alloc.InUse b) (hmigrate : sb.migrateTo o b q = some t) :
    (t.marks b).pageVmap = false := by
  have hfree : ∃ u : Sb, u.alloc = sb.alloc.markPage q (sb.marks b) ∧
      u.freeBlock o b = some t := by
    unfold Sb.migrateTo at hmigrate
    dsimp only at hmigrate
    split at hmigrate
    · exact ⟨_, rfl, hmigrate⟩
    · exact ⟨_, rfl, hmigrate⟩
  obtain ⟨u, hu, hfree⟩ := hfree
  obtain ⟨a, ha, rfl⟩ := Option.map_eq_some_iff.mp hfree
  rw [hu] at ha
  have hkind' : (sb.alloc.markPage q (sb.marks b)).isWear = true :=
    Factory.markPage_isWear.trans hkind
  rcases hinv.markPage.freeBlock (Factory.markPage_inUse.mpr hb) ha with hspec | ⟨hranges, -⟩
  · have hmarks : a.pageMarks b = (sb.alloc.markPage q (sb.marks b)).markOf b := by
      rw [hspec.marks, Function.update_self]
    cases halloc : sb.alloc with
    | wear r =>
      rw [halloc] at hmarks
      exact congrArg PageMarks.pageVmap hmarks
    | ranges r marks =>
      rw [halloc] at hkind
      cases hkind
  · rw [hkind'] at hranges
    cases hranges

/-- The migration of a page that is marked as one behind a mapping table. -/
theorem levelTypeVmap_unchanged_iff (hinv : sb.alloc.Inv lo hi) (hb : sb.alloc.InUse b)
    (hvmap : (sb.marks b).pageVmap = true) :
    (∀ o o', ∃ t, sb.levelTypeVmap o o' b = some t ∧ Unchanged sb t) ↔ Idle sb b := by
  refine forall_congr' fun o => ?_
  unfold Sb.levelTypeVmap
  cases hnew : sb.newBlock o with
  | mk res u =>
    obtain ⟨hu, halloc⟩ := newBlock_sb hnew
    cases res with
    | ok q =>
      dsimp only
      have hgiven := hinv.newBlock halloc
      have hb' : u.alloc.InUse b := (hgiven.inUse b).mpr (.inl hb)
      cases hwear : sb.alloc.isWear with
      | true =>
        refine iff_of_false (fun h => ?_) (by simp)
        obtain ⟨t, hmigrate, hsame⟩ := h o
        have hmarks := migrateTo_marks hgiven.inv (hgiven.kind.trans hwear) hb' hmigrate
        rw [hsame.marks, hvmap] at hmarks
        cases hmarks
      | false =>
        have hmarks : u.alloc.pageMarks = sb.alloc.pageMarks := by
          rw [hgiven.marks]
          cases hkind : sb.alloc with
          | wear r =>
            rw [hkind] at hwear
            cases hwear
          | ranges r marks => exact Function.update_eq_self ..
        rw [hu]
        have hiff := fun o' => migrateTo_alloc_iff (o := o') (q := q) hmarks hgiven.inv
          (hgiven.kind.trans hwear) hb'
        exact ⟨fun h => ⟨rfl, (hiff o).1 (h o)⟩, fun h o' => (hiff o').2 h.2⟩
    | error e =>
      obtain ⟨hsame, he⟩ := hinv.newBlock_error halloc
      cases hwear : sb.alloc.isWear with
      | true =>
        rw [hwear] at he
        subst he
        have hmarks : u.marks = sb.marks := hsame.marks
        refine iff_of_true (fun o' => ⟨u, rfl, ?_⟩) trivial
        rw [hu]
        exact ⟨rfl, hmarks, rfl⟩
      | false =>
        rw [hwear] at he
        subst he
        rw [hu]
        have hiff := fun o' => migrateTo_alloc_iff (o := o') (q := b) hsame.marks hsame.inv
          (hsame.kind.trans hwear) ((hsame.inUse b).mpr hb)
        exact ⟨fun h => (hiff o).1 (h o), fun h o' => (hiff o').2 h⟩

/-! ## Events -/

/-- What is called for the page of a file while mapped pages are not migrated. -/
theorem intBottom_off (hmapped : s.mapping b ≠ none) (hoff : wlSwitch &&& 0x1 = 0) :
    s.intBottom wlSwitch b =
      if (s.sb.marks b).pageUsing = true ∧ wlSwitch &&& 0x2 ≠ 0 then some .vmap else none := by
  have htype : s.pageType b = .rmap := if_pos hmapped
  unfold Fs.intBottom Fs.wearLerveling
  rw [htype]
  dsimp only
  rw [if_neg (not_not.2 hoff)]
  by_cases husing : (s.sb.marks b).pageUsing = true <;> simp [husing]

/-- In the other cases only marked pages get the migration of pages behind a mapping table. -/
theorem intBottom_vmap (hcall : s.intBottom wlSwitch b = some .vmap)
    (hnot : ¬(s.mapping b ≠ none ∧ wlSwitch &&& 0x1 = 0)) :
    (s.sb.marks b).pageVmap = true := by
  have hcall' : s.wearLerveling wlSwitch b = some .vmap := by
    unfold Fs.intBottom at hcall
    split at hcall
    · exact hcall
    · cases hcall
  unfold Fs.wearLerveling at hcall'
  cases htype : s.pageType b with
  | rmap =>
    have hmapped : s.mapping b ≠ none := by
      by_contra hnone
      unfold Fs.pageType at htype
      rw [if_neg (not_not.2 hnone)] at htype
      split at htype <;> cases htype
    have hon : wlSwitch &&& 0x1 ≠ 0 := by
      by_contra hoff
      exact hnot ⟨hmapped, hoff⟩
    rw [htype] at hcall'
    dsimp only at hcall'
    rw [if_pos hon] at hcall'
    cases hcall'
  | vmap =>
    unfold Fs.pageType at htype
    grind
  | stranded =>
    rw [htype] at hcall'
    dsimp only at hcall'
    split at hcall' <;> cases hcall'

/-- A hot page gets what fits it unless it is the page of a file, in use, and only the migration of
mapped pages of the two is switched off; and even then if it is also marked as one behind a mapping
table, and that migration changes nothing. -/
theorem fits_iff (s : Fs) (wlSwitch : Int32) (b : ℕ) (hinv : s.sb.alloc.Inv lo hi)
    (hfile : s.mapping b ≠ none → s.sb.alloc.InUse b) :
    Fits wlSwitch s b ↔
      (s.mapping b ≠ none ∧ (s.sb.marks b).pageUsing = true ∧ wlSwitch &&& 0x1 = 0 ∧
        wlSwitch &&& 0x2 ≠ 0 → (s.sb.marks b).pageVmap = true ∧ Idle s.sb b) := by
  constructor
  · rintro h ⟨hmapped, husing, hoff, hon⟩
    have hcall := intBottom_off hmapped hoff
    rw [if_pos ⟨husing, hon⟩] at hcall
    have hvmap := h.marked hcall
    refine ⟨hvmap, (levelTypeVmap_unchanged_iff hinv (hfile hmapped) hvmap).1 fun o o' => ?_⟩
    obtain ⟨t, hlevel, -, hsame⟩ := h.off hmapped hoff o o' 0
    rw [hcall] at hlevel
    obtain ⟨u, hu, rfl⟩ := Option.map_eq_some_iff.mp hlevel
    exact ⟨u, hu, hsame⟩
  · intro h
    refine ⟨fun hcall => ?_, fun hmapped hoff o o' junk => ?_⟩
    · by_cases hoff : s.mapping b ≠ none ∧ wlSwitch &&& 0x1 = 0
      · rw [intBottom_off hoff.1 hoff.2] at hcall
        split at hcall
        · rename_i hon
          exact (h ⟨hoff.1, hon.1, hoff.2, hon.2⟩).1
        · cases hcall
      · exact intBottom_vmap hcall hoff
    · rw [intBottom_off hmapped hoff]
      split
      · rename_i hon
        obtain ⟨hvmap, hidle⟩ := h ⟨hmapped, hon.1, hoff, hon.2⟩
        obtain ⟨t, hlevel, hsame⟩ :=
          (levelTypeVmap_unchanged_iff hinv (hfile hmapped) hvmap).2 hidle o o'
        exact ⟨s.setSb t, by simp [Fs.level, hlevel], rfl, hsame⟩
      · exact ⟨s, rfl, rfl, rfl, rfl, rfl⟩

/-! ## The page of a small file -/

/-- The page of the block 2 is mapped by a file. -/
def hotFile : Fs where
  sb := smallSb
  inode _ := some ⟨4096, 1⟩
  freeing _ := false
  mapping b := if b = 2 then some 0 else none
  transHuge _ := false
  iPages _ _ := none

/-- With the migration of mapped pages on, the page fits. -/
theorem fits_hotFile : Fits 3 hotFile 2 :=
  (fits_iff hotFile 3 2 inv_smallSb fun _ => inUse_smallSb.mpr (by decide)).2
    fun h => absurd h.2.2.1 (by decide)

/-- With the second bit alone it is taken for a page behind a mapping table. -/
theorem not_fits_hotFile : ¬∀ (lo hi : ℕ) (s : Fs) (wlSwitch : Int32) (b : ℕ),
    s.sb.alloc.Inv lo hi → (s.mapping b ≠ none → s.sb.alloc.InUse b) → Fits wlSwitch s b := by
  intro h
  have hfits := h 1 8 hotFile 2 2 inv_smallSb fun _ => inUse_smallSb.mpr (by decide)
  exact absurd (hfits.marked (by decide)) (by decide)

end Wpmfs.Migrate
