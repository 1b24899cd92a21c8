import Mathlib.Algebra.Order.Ring.Int
import Mathlib.Algebra.Order.Ring.Nat
import Mathlib.Logic.Relation
import Wpmfs.Vmap.Address

/-!
# Page marks of mapped pages

With the wear-aware allocator `WPMFS_PAGE_VMAP` marks exactly the pages that a mapping table
records: it takes the mark from a page that it hands out or gets back. The range-list allocator does
not, so after a migration the old page keeps its mark, whoever gets it.
-/

namespace Wpmfs.Vmap

open Balloc

namespace Sb

variable {s s' : Sb} {r : Region} {b k q lo hi : ℕ} {o o' : Surroundings} {m : PageMarks}

/-- The block `b` is behind the virtual page `k`. -/
structure Recorded (s : Sb) (r : Region) (k b : ℕ) : Prop where
  lt : k < (s.area r).pages
  slot : (s.area r).slot k = b
  pte : (s.area r).pte k = some b

/-- `WPMFS_PAGE_VMAP` marks the pages that are behind the slot `page->index`. -/
def MarksExact (s : Sb) : Prop :=
  ∀ b, (s.marks b).pageVmap = true ↔ s.Recorded (regionOf (s.marks b)) (s.pageIndex b) b

/-- The page of the block `b` is set up for the slot `k`. -/
structure Mapped (s : Sb) (r : Region) (k b : ℕ) : Prop where
  pte : (s.area r).pte k = some b
  vmap : (s.marks b).pageVmap = true
  region : regionOf (s.marks b) = r
  index : s.pageIndex b = k
  inUse : s.alloc.InUse b

/-- The invariant: each slot has its page set up, and there are no other marked pages. -/
structure Sound (lo hi : ℕ) (s : Sb) : Prop where
  alloc : s.alloc.Inv lo hi
  mapped : ∀ r k, k < (s.area r).pages → s.Mapped r k ((s.area r).slot k)
  marked : ∀ b, (s.marks b).pageVmap = true →
    ∃ k < (s.area (regionOf (s.marks b))).pages, (s.area (regionOf (s.marks b))).slot k = b

theorem Sound.recorded (h : s.Sound lo hi) : s.MarksExact := by
  intro b
  constructor
  · intro hb
    obtain ⟨k, hk, hslot⟩ := h.marked b hb
    have hmapped := h.mapped _ k hk
    rw [hslot] at hmapped
    rw [hmapped.index]
    exact ⟨hk, hslot, hmapped.pte⟩
  · intro hb
    have hmapped := h.mapped _ _ hb.lt
    rw [hb.slot] at hmapped
    exact hmapped.vmap

/-- No slot of a table names the block. -/
def Unrecorded (s : Sb) (b : ℕ) : Prop := ∀ r k, k < (s.area r).pages → (s.area r).slot k ≠ b

/-- The invariant, but the block `b`, which no table records, may carry any marks. -/
structure Loose (lo hi : ℕ) (b : ℕ) (s : Sb) : Prop where
  alloc : s.alloc.Inv lo hi
  mapped : ∀ r k, k < (s.area r).pages → s.Mapped r k ((s.area r).slot k)
  marked : ∀ x, x ≠ b → (s.marks x).pageVmap = true →
    ∃ k < (s.area (regionOf (s.marks x))).pages, (s.area (regionOf (s.marks x))).slot k = x
  out : s.Unrecorded b

theorem Sound.loose (h : s.Sound lo hi) (hb : s.Unrecorded b) : s.Loose lo hi b :=
  ⟨h.alloc, h.mapped, fun x _ => h.marked x, hb⟩

theorem Sound.unrecorded_of_free (h : s.Sound lo hi) (hb : s.alloc.Free b) : s.Unrecorded b := by
  rintro r k hk rfl
  exact h.alloc.disjoint hb (h.mapped r k hk).inUse

theorem Sound.unmarked (h : s.Sound lo hi) (hb : s.Unrecorded b) :
    (s.marks b).pageVmap = false := by
  by_contra hmark
  obtain ⟨k, hk, hslot⟩ := h.marked b (by simpa using hmark)
  exact hb _ k hk hslot

/-- The allocator changes, with the marks of the block `b` and who has it. -/
theorem Loose.setAlloc (h : s.Loose lo hi b) {a : Factory} (ha : a.Inv lo hi)
    (hmarks : a.pageMarks = Function.update s.alloc.pageMarks b m) (hm : m.pageVmap = false)
    (hinUse : ∀ x, x ≠ b → s.alloc.InUse x → a.InUse x) : Sound lo hi { s with alloc := a } := by
  have hself : Sb.marks { s with alloc := a } b = m := by
    rw [marks, hmarks, Function.update_self]
  have hother : ∀ x, x ≠ b → Sb.marks { s with alloc := a } x = s.marks x := by
    intro x hx
    rw [marks, hmarks, Function.update_of_ne hx]
    rfl
  refine ⟨ha, fun r k hk => ?_, fun x hx => ?_⟩
  · have hne := h.out r k hk
    obtain ⟨hpte, hvmap, hregion, hindex, huse⟩ := h.mapped r k hk
    exact ⟨hpte, by rw [hother _ hne, hvmap], by rw [hother _ hne, hregion], hindex,
      hinUse _ hne huse⟩
  · have hxb : x ≠ b := by
      rintro rfl
      rw [hself, hm] at hx
      cases hx
    rw [hother x hxb] at hx ⊢
    exact h.marked x hxb hx

theorem Sound.newBlock (h : s.Sound lo hi) (hnew : s.newBlock o = (.ok q, s')) :
    s'.Sound lo hi ∧ Factory.Handed lo hi s.alloc q s'.alloc ∧
      s' = { s with alloc := s'.alloc } := by
  cases hq : s.alloc.newBlock o with
  | mk res a =>
    rw [Sb.newBlock, hq] at hnew
    cases hnew
    have hspec := h.alloc.newBlock hq
    have hout := h.unrecorded_of_free hspec.was
    refine ⟨(h.loose hout).setAlloc hspec.inv hspec.marks ?_ fun x _ hx =>
      (hspec.inUse x).mpr (.inl hx), hspec, rfl⟩
    exact Factory.markOf_pageVmap (h.unmarked hout)

/-- A block goes back that no table records. Under the range-list allocator it must not be marked,
which that allocator leaves as it is. -/
theorem Loose.freeBlock (h : s.Loose lo hi b) (hb : s.alloc.InUse b)
    (hmark : s.alloc.isWear = true ∨ (s.marks b).pageVmap = false)
    (hfree : s.freeBlock o b = some s') : s'.Sound lo hi := by
  obtain ⟨a, ha, rfl⟩ := Option.map_eq_some_iff.mp hfree
  have hunmarked : (s.alloc.markOf b).pageVmap = false := by
    rcases hmark with hwear | hmark
    · cases hs : s.alloc with
      | wear r => rfl
      | ranges r marks =>
        rw [hs] at hwear
        cases hwear
    · exact Factory.markOf_pageVmap hmark
  rcases h.alloc.freeBlock hb ha with hspec | ⟨hkind, -, hspec⟩
  · exact h.setAlloc hspec.inv hspec.marks hunmarked fun x hne hx => (hspec.inUse x).mpr ⟨hx, hne⟩
  · refine h.setAlloc hspec.inv (m := s.marks b) ?_ ?_ fun x _ hx => (hspec.inUse x).mpr hx
    · rw [hspec.marks, marks, Function.update_eq_self]
    · exact hmark.resolve_left (by simp [hkind])

/-- The page of the block `q`, with the marks `m`, comes behind the slot `k`, which may be new. -/
structure Records (s : Sb) (r : Region) (k q : ℕ) (m : PageMarks) (s' : Sb) : Prop where
  marks : s'.alloc.pageMarks = Function.update s.alloc.pageMarks q m
  inUse : ∀ x, s'.alloc.InUse x ↔ s.alloc.InUse x
  index : s'.pageIndex = Function.update s.pageIndex q k
  other : ∀ r', r' ≠ r → s'.area r' = s.area r'
  slot : (s'.area r).slot = Function.update (s.area r).slot k q
  pte : (s'.area r).pte = Function.update (s.area r).pte k (some q)
  lt : k < (s'.area r).pages
  pages : ∀ j, j < (s'.area r).pages ↔ j = k ∨ j < (s.area r).pages

section Records

variable (hrec : s.Records r k q m s')

include hrec

theorem Records.marks_self : s'.marks q = m := by
  rw [Sb.marks, hrec.marks, Function.update_self]

theorem Records.marks_of_ne {x : ℕ} (hx : x ≠ q) : s'.marks x = s.marks x := by
  rw [Sb.marks, hrec.marks, Function.update_of_ne hx]
  rfl

/-- A slot of another region, or another slot of the region, is what it was. -/
theorem Records.keeps (r' : Region) (j : ℕ) (hne : r' ≠ r ∨ j ≠ k) :
    (s'.area r').slot j = (s.area r').slot j ∧ (s'.area r').pte j = (s.area r').pte j ∧
      (j < (s'.area r').pages ↔ j < (s.area r').pages) := by
  by_cases hr : r' = r
  · subst hr
    have hjk : j ≠ k := hne.resolve_left (by simp)
    rw [hrec.slot, hrec.pte, hrec.pages, Function.update_of_ne hjk, Function.update_of_ne hjk]
    exact ⟨rfl, rfl, or_iff_right hjk⟩
  · rw [hrec.other r' hr]
    exact ⟨rfl, rfl, Iff.rfl⟩

theorem Records.mapped (h : s.Loose lo hi q) (hq : s.alloc.InUse q) (hm : m.pageVmap = true)
    (hr : regionOf m = r) (r' : Region) (j : ℕ) (hj : j < (s'.area r').pages) :
    s'.Mapped r' j ((s'.area r').slot j) := by
  by_cases hself : r' = r ∧ j = k
  · obtain ⟨rfl, rfl⟩ := hself
    rw [hrec.slot, Function.update_self]
    refine ⟨by rw [hrec.pte, Function.update_self], ?_, ?_, ?_, (hrec.inUse q).mpr hq⟩
    · rw [hrec.marks_self, hm]
    · rw [hrec.marks_self, hr]
    · rw [hrec.index, Function.update_self]
  · obtain ⟨hslot, hpte, hpages⟩ := hrec.keeps r' j (by tauto)
    have hj := hpages.mp hj
    have hne := h.out r' j hj
    have hold := h.mapped r' j hj
    rw [hslot]
    refine ⟨by rw [hpte, hold.pte], ?_, ?_, ?_, (hrec.inUse _).mpr hold.inUse⟩
    · rw [hrec.marks_of_ne hne, hold.vmap]
    · rw [hrec.marks_of_ne hne, hold.region]
    · rw [hrec.index, Function.update_of_ne hne, hold.index]

/-- A marked page is behind a slot, unless it was behind the slot that is taken over. -/
theorem Records.marked (h : s.Loose lo hi q) (hr : regionOf m = r) {x : ℕ}
    (hold : k < (s.area r).pages → x ≠ (s.area r).slot k) (hx : (s'.marks x).pageVmap = true) :
    ∃ j < (s'.area (regionOf (s'.marks x))).pages,
      (s'.area (regionOf (s'.marks x))).slot j = x := by
  by_cases hxq : x = q
  · subst hxq
    rw [hrec.marks_self, hr]
    exact ⟨k, hrec.lt, by rw [hrec.slot, Function.update_self]⟩
  · rw [hrec.marks_of_ne hxq] at hx ⊢
    obtain ⟨j, hj, hslot⟩ := h.marked x hxq hx
    have hne : regionOf (s.marks x) ≠ r ∨ j ≠ k := by
      by_contra hsame
      simp only [not_or, ne_eq, not_not] at hsame
      obtain ⟨hregion, rfl⟩ := hsame
      rw [hregion] at hj hslot
      exact hold hj hslot.symm
    obtain ⟨hslot', -, hpages⟩ := hrec.keeps _ _ hne
    exact ⟨j, hpages.mpr hj, by rw [hslot', hslot]⟩

end Records

/-- A store to memory changes no slot. -/
theorem Records.setWord {i v : ℕ} (hrec : s.Records r k q m s') :
    s.Records r k q m (s'.setWord b i v) :=
  ⟨hrec.marks, hrec.inUse, hrec.index, hrec.other, hrec.slot, hrec.pte, hrec.lt, hrec.pages⟩

/-- `wpmfs_map_dynamic_page` takes the next slot. -/
theorem records_map (s : Sb) (b : ℕ) : s.Records .dynamic (s.area .dynamic).pages b
    (mappedMarks .dynamic) (s.wpmfsMapDynamicPage b) := by
  refine ⟨by simp [wpmfsMapDynamicPage], by simp [wpmfsMapDynamicPage], rfl, fun r' hr' => ?_,
    ?_, ?_, ?_, fun j => ?_⟩
  · exact Function.update_of_ne hr' ..
  all_goals simp [wpmfsMapDynamicPage, Area.flushSlot, Area.setSlot, Area.setPte]
  omega

theorem Sound.map (h : s.Sound lo hi) (hb : s.alloc.InUse b) (hout : s.Unrecorded b) :
    (s.wpmfsMapDynamicPage b).Sound lo hi := by
  have hrec := s.records_map b
  have hloose := h.loose hout
  refine ⟨h.alloc.markPage, hrec.mapped hloose hb rfl regionOf_mappedMarks, fun x hx => ?_⟩
  exact hrec.marked hloose regionOf_mappedMarks (fun hlt => absurd hlt (lt_irrefl _)) hx

/-- A slot in use and its page name each other. -/
theorem Sound.slot_eq_iff (h : s.Sound lo hi) (hb : (s.marks b).pageVmap = true) {j : ℕ}
    (hj : j < (s.area r).pages) :
    (s.area r).slot j = b ↔ r = regionOf (s.marks b) ∧ j = s.pageIndex b := by
  constructor
  · rintro rfl
    have hmapped := h.mapped r j hj
    exact ⟨hmapped.region.symm, hmapped.index.symm⟩
  · rintro ⟨rfl, rfl⟩
    exact ((h.recorded b).mp hb).slot

/-- A page that moves takes its slot along. -/
theorem records_move (q : ℕ) (hlt : s.pageIndex b < (s.area (regionOf (s.marks b))).pages) :
    s.Records (regionOf (s.marks b)) (s.pageIndex b) q (s.marks b)
      ((s.inherit b q).moveSlot (regionOf (s.marks b)) (s.pageIndex b) b q) := by
  refine ⟨by simp [moveSlot, inherit], by simp [moveSlot, inherit], rfl, fun r' hr' => ?_,
    ?_, ?_, ?_, fun j => ?_⟩
  · exact Function.update_of_ne hr' ..
  all_goals simp [moveSlot, inherit, Area.flushSlot, Area.setSlot, Area.setPte]
  all_goals omega

theorem Sound.moved (h : s.Sound lo hi) (hb : (s.marks b).pageVmap = true)
    (hq : s.alloc.InUse q) (hout : s.Unrecorded q) (hbq : b ≠ q) :
    ((s.inherit b q).moveSlot (regionOf (s.marks b)) (s.pageIndex b) b q).Loose lo hi b := by
  have hbmapped := (h.recorded b).mp hb
  have hrec := records_move q hbmapped.lt
  have hloose := h.loose hout
  refine ⟨h.alloc.markPage, hrec.mapped hloose hq hb rfl, fun x hxb hx => ?_, fun r' j hj => ?_⟩
  · exact hrec.marked hloose rfl (fun _ => by rwa [hbmapped.slot]) hx
  · by_cases hself : r' = regionOf (s.marks b) ∧ j = s.pageIndex b
    · rw [hself.1, hself.2, hrec.slot, Function.update_self]
      exact hbq.symm
    · obtain ⟨hslot, -, hpages⟩ := hrec.keeps r' j (by tauto)
      rw [hslot, ne_eq, h.slot_eq_iff hb (hpages.mp hj)]
      exact hself

theorem Sound.migrateTo (h : s.Sound lo hi) (hwear : s.alloc.isWear = true)
    (hb : (s.marks b).pageVmap = true) (hq : s.alloc.InUse q) (hout : s.Unrecorded q)
    (hmigrate : s.migrateTo o b q = some s') : s'.Sound lo hi := by
  have hbmapped := (h.recorded b).mp hb
  have hbq : b ≠ q := fun hbq => hout _ _ hbmapped.lt (hbmapped.slot.trans hbq)
  have hbuse : s.alloc.InUse b := by
    have := (h.mapped _ _ hbmapped.lt).inUse
    rwa [hbmapped.slot] at this
  have hmarks : (s.inherit b q).marks b = s.marks b := by
    rw [marks, inherit, Factory.markPage_pageMarks, Function.update_of_ne hbq]
    rfl
  have hindex : (s.inherit b q).pageIndex b = s.pageIndex b := Function.update_of_ne hbq ..
  have hpte : ((s.inherit b q).area (regionOf (s.marks b))).pte (s.pageIndex b) = some b :=
    hbmapped.pte
  rw [Sb.migrateTo, hmarks, hindex, hpte] at hmigrate
  refine (h.moved hb hq hout hbq).freeBlock ?_ (.inl ?_) hmigrate
  · simpa [moveSlot, inherit] using hbuse
  · simpa [moveSlot, inherit] using hwear

theorem Sound.newBlock_error (h : s.Sound lo hi) {e : Errno}
    (hnew : s.newBlock o = (.error e, s')) :
    s'.Sound lo hi ∧ e = if s.alloc.isWear then .enomem else .enospc := by
  cases hq : s.alloc.newBlock o with
  | mk res a =>
    rw [Sb.newBlock, hq] at hnew
    cases hnew
    obtain ⟨hspec, he⟩ := h.alloc.newBlock_error hq
    refine ⟨⟨hspec.inv, fun r k hk => ?_, fun x hx => ?_⟩, he⟩
    · obtain ⟨hpte, hvmap, hregion, hindex, huse⟩ := h.mapped r k hk
      rw [marks, ← hspec.marks] at hvmap hregion
      exact ⟨hpte, hvmap, hregion, hindex, (hspec.inUse _).mpr huse⟩
    · rw [marks, hspec.marks] at hx ⊢
      exact h.marked x hx

theorem Sound.levelTypeVmap (h : s.Sound lo hi) (hwear : s.alloc.isWear = true)
    (hb : (s.marks b).pageVmap = true) (hmigrate : s.levelTypeVmap o o' b = some s') :
    s'.Sound lo hi := by
  rw [Sb.levelTypeVmap] at hmigrate
  cases hnew : s.newBlock o with
  | mk res s₁ =>
    rw [hnew] at hmigrate
    cases res with
    | ok q =>
      obtain ⟨h₁, hspec, hs₁⟩ := h.newBlock hnew
      have hout := h.unrecorded_of_free hspec.was
      have hbq : b ≠ q := by
        have hrecorded := (h.recorded b).mp hb
        exact fun hbq => hout _ _ hrecorded.lt (hrecorded.slot.trans hbq)
      refine h₁.migrateTo (hspec.kind.trans hwear) ?_ ((hspec.inUse q).mpr (.inr rfl)) ?_ hmigrate
      · rw [marks, hspec.marks, Function.update_of_ne hbq]
        exact hb
      · rw [hs₁]
        exact hout
    | error e =>
      obtain ⟨h₁, rfl⟩ := h.newBlock_error hnew
      rw [hwear] at hmigrate
      cases hmigrate
      exact h₁

/-! ## Runs -/

/-- The calls that change marks, tables or page tables after the setup. -/
inductive Call where
  | newBlock (o : Surroundings)
  | freeBlock (b : ℕ) (o : Surroundings)
  | map (b : ℕ)
  | migrate (b : ℕ) (o o' : Surroundings)

/-- A call; `none` is a bad store in the allocator. -/
def exec (s : Sb) : Call → Option Sb
  | .newBlock o => some (s.newBlock o).2
  | .freeBlock b o => s.freeBlock o b
  | .map b => some (s.wpmfsMapDynamicPage b)
  | .migrate b o o' => s.levelTypeVmap o o' b

/-- What callers make sure of: blocks are freed that are in use and not behind a mapping table,
pages are mapped that are in use and not yet mapped, and marked pages are migrated. -/
def Legal (s : Sb) : Call → Prop
  | .newBlock _ => True
  | .freeBlock b _ => s.alloc.InUse b ∧ s.Unrecorded b
  | .map b => s.alloc.InUse b ∧ s.Unrecorded b
  | .migrate b _ _ => (s.marks b).pageVmap = true

/-- Pages are migrated only under the wear-aware allocator, and mapped while there is room in the
pages of the dynamic table. -/
def KeepsMarks (s : Sb) : Call → Prop
  | .map _ => (s.area .dynamic).pages < dynamicSlots
  | .migrate _ _ _ => s.alloc.isWear = true
  | _ => True

inductive Step (ok : Sb → Call → Prop) (s s' : Sb) : Prop
  | mk (c : Call) (hlegal : s.Legal c) (hok : ok s c) (hexec : s.exec c = some s')

abbrev Reaches (ok : Sb → Call → Prop) : Sb → Sb → Prop := Relation.ReflTransGen (Step ok)

theorem Sound.step (h : s.Sound lo hi) (hstep : Step KeepsMarks s s') : s'.Sound lo hi := by
  obtain ⟨c, hlegal, hok, hexec⟩ := hstep
  cases c with
  | newBlock o =>
    cases hexec
    cases hnew : s.newBlock o with
    | mk res s₁ =>
      cases res with
      | ok q => exact (h.newBlock hnew).1
      | error e => exact (h.newBlock_error hnew).1
  | freeBlock b o =>
    exact (h.loose hlegal.2).freeBlock hlegal.1 (.inr (h.unmarked hlegal.2)) hexec
  | map b =>
    cases hexec
    exact h.map hlegal.1 hlegal.2
  | migrate b o o' => exact h.levelTypeVmap hok hlegal hexec

theorem Sound.reaches (h : s.Sound lo hi) (hrun : Reaches KeepsMarks s s') : s'.Sound lo hi := by
  induction hrun with
  | refl => exact h
  | tail _ hstep ih => exact ih.step hstep

/-! ## The state after the setup -/

section Setup

variable {first n x : ℕ}

theorem setupSlots_marks : (setupSlots first n s).marks x =
    if first ≤ x ∧ x < first + n then mappedMarks .static else s.marks x := by
  induction n with
  | zero => simp [setupSlots]
  | succ n ih =>
    have hstep : (setupSlots first (n + 1) s).marks x =
        if x = first + n then mappedMarks .static else (setupSlots first n s).marks x := by
      simp only [setupSlots, setupSlot, marks, Factory.markPage_pageMarks, Function.update_apply]
    rw [hstep, ih]
    split_ifs <;> first | rfl | omega

theorem setupSlots_pageIndex : (setupSlots first n s).pageIndex x =
    if first ≤ x ∧ x < first + n then x - first else s.pageIndex x := by
  induction n with
  | zero => simp [setupSlots]
  | succ n ih =>
    simp only [setupSlots, setupSlot, Function.update_apply, ih]
    split_ifs <;> omega

theorem setupSlots_static {k : ℕ} (first : ℕ) (s : Sb) (hk : k < n) :
    ((setupSlots first n s).area .static).slot k = first + k ∧
      ((setupSlots first n s).area .static).pte k = some (first + k) := by
  induction n with
  | zero => omega
  | succ n ih =>
    simp only [setupSlots, setupSlot, Function.update_self, Area.setSlot, Area.setPte,
      Function.update_apply]
    split_ifs with hkn
    · exact ⟨by rw [hkn], by rw [hkn]⟩
    · exact ih (by omega)

theorem setupTable_marks : (setupTable first n s).marks x =
    if first ≤ x ∧ x < first + n then { pageUsing := true, pageVmapDynamic := true }
    else s.marks x := by
  induction n with
  | zero => simp [setupTable]
  | succ n ih =>
    have hstep : (setupTable first (n + 1) s).marks x = if x = first + n then
        { pageUsing := true, pageVmapDynamic := true } else (setupTable first n s).marks x := by
      simp only [setupTable, marks, Factory.markPage_pageMarks, Function.update_apply]
    rw [hstep, ih]
    split_ifs <;> first | rfl | omega

theorem setupTable_frame (first n : ℕ) (s : Sb) : (setupTable first n s).area = s.area ∧
    (setupTable first n s).pageIndex = s.pageIndex := by
  induction n with
  | zero => exact ⟨rfl, rfl⟩
  | succ n ih => exact ih

theorem mapPages_pos : 0 < mapPages n := by
  rw [mapPages, mptablesWords]
  omega

theorem hardInit_static {wear : Bool} {blockEnd numBins : ℕ} :
    (hardInit wear blockEnd numBins n s).area .static = (setupVmapStatic n s).area .static := by
  have hframe := setupTable_frame (mapPages n + n) 10 (setupVmapStatic n s)
  have hinit : (hardInit wear blockEnd numBins n s).area .static =
      (setupVmapDynamic (mapPages n + n) (setupVmapStatic n s)).area .static := rfl
  have hne : Region.static ≠ .dynamic := nofun
  rw [hinit, setupVmapDynamic, setArea_of_ne hne, hframe.1]

/-- `hardInit` on pages of which none is marked. -/
theorem sound_hardInit {wear : Bool} {blockEnd numBins : ℕ} (hbins : 0 < numBins)
    (hfit : mapPages n + n + 10 ≤ blockEnd) (hblank : ∀ x, (s.marks x).pageVmap = false) :
    (hardInit wear blockEnd numBins n s).Sound (mapPages n) blockEnd := by
  have hres : reservedBlocks (4096 * (mapPages n + n + 10)) = mapPages n + n + 10 := by
    rw [reservedBlocks]
    omega
  have hmarks : ∀ x, (hardInit wear blockEnd numBins n s).marks x =
      (setupTable (mapPages n + n) 10 (setupVmapStatic n s)).marks x := by
    intro x
    rw [marks, hardInit, Factory.start_pageMarks]
    rfl
  have hstatic : ∀ {x}, mapPages n ≤ x → x < mapPages n + n →
      (hardInit wear blockEnd numBins n s).marks x = mappedMarks .static := by
    intro x hx hx'
    rw [hmarks, setupTable_marks, if_neg (by omega)]
    exact setupSlots_marks.trans (if_pos ⟨hx, hx'⟩)
  have hslots : ∀ k < n, ((hardInit wear blockEnd numBins n s).area .static).slot k =
      mapPages n + k ∧
      ((hardInit wear blockEnd numBins n s).area .static).pte k = some (mapPages n + k) := by
    intro k hk
    rw [hardInit_static, setupVmapStatic, setArea_self]
    exact setupSlots_static _ _ hk
  have hpages : ((hardInit wear blockEnd numBins n s).area .static).pages = n := by
    rw [hardInit_static, setupVmapStatic, setArea_self]
  refine ⟨Factory.inv_start hbins mapPages_pos (by omega) (by omega), fun r k hk => ?_,
    fun x hx => ?_⟩
  · cases r with
    | static =>
      rw [hpages] at hk
      obtain ⟨hslot, hpte⟩ := hslots k hk
      have hm := hstatic (x := mapPages n + k) (by omega) (by omega)
      rw [hslot]
      refine ⟨hpte, by rw [hm]; rfl, by rw [hm]; rfl, ?_, Factory.start_inUse.mpr (by omega)⟩
      have hframe := setupTable_frame (mapPages n + n) 10 (setupVmapStatic n s)
      refine (congrFun hframe.2 _).trans (setupSlots_pageIndex.trans ?_)
      rw [if_pos (by omega)]
      omega
    | dynamic => exact absurd hk (Nat.not_lt_zero k)
  · have hrange : mapPages n ≤ x ∧ x < mapPages n + n := by
      by_contra hout
      rw [hmarks, setupTable_marks] at hx
      split at hx
      · cases hx
      · have hold : (setupVmapStatic n s).marks x = s.marks x :=
          setupSlots_marks.trans (if_neg hout)
        rw [hold, hblank] at hx
        cases hx
    rw [hstatic hrange.1 hrange.2, regionOf_mappedMarks, hpages]
    refine ⟨x - mapPages n, by omega, ?_⟩
    rw [(hslots _ (by omega)).1]
    omega

/-- From the setup on, on pages of which none was marked, the marks stay exact as long as pages are
migrated only under the wear-aware allocator and the dynamic table has room. -/
theorem Reaches.marksExact {wear : Bool} {blockEnd numBins : ℕ} (hbins : 0 < numBins)
    (hfit : mapPages n + n + 10 ≤ blockEnd) (hblank : ∀ x, (s.marks x).pageVmap = false)
    (hrun : Reaches KeepsMarks (hardInit wear blockEnd numBins n s) s') : s'.MarksExact :=
  ((sound_hardInit hbins hfit hblank).reaches hrun).recorded

/-- Pages that were never used. -/
def blank : Sb :=
  ⟨.start false 1 0 1 4096 fun _ => {}, fun _ _ => 0, fun _ => 0,
    fun _ => ⟨fun _ => 0, fun _ => 0, fun _ => none, 0⟩⟩

/-- A call that finds memory for a range node, and unworn blocks. -/
def calm : Surroundings := ⟨true, 10, fun _ => 0⟩

/-- The migration of the page of the slot 0, which is the block 1. -/
def migrated (wear : Bool) : Sb :=
  ((hardInit wear 64 4 17 blank).levelTypeVmap calm calm 1).getD blank

theorem step_migrated {wear : Bool} {ok : Sb → Call → Prop}
    (hok : ok (hardInit wear 64 4 17 blank) (.migrate 1 calm calm)) :
    Step ok (hardInit wear 64 4 17 blank) (migrated wear) := by
  refine ⟨.migrate 1 calm calm, ?_, hok, ?_⟩
  · cases wear <;> rfl
  · cases wear <;> rfl

/-- The page of the slot 0 is migrated under the wear-aware allocator. -/
theorem marksExact_migrate : Reaches KeepsMarks (hardInit true 64 4 17 blank) (migrated true) ∧
    (migrated true).MarksExact := by
  have hrun : Reaches KeepsMarks (hardInit true 64 4 17 blank) (migrated true) :=
    .single (step_migrated rfl)
  exact ⟨hrun, hrun.marksExact (by decide) (by decide) fun _ => rfl⟩

/-- The same under the range-list allocator, which then hands out the old page: it is still
marked. -/
theorem not_marksExact_migrate :
    Reaches (fun _ _ => True) (hardInit false 64 4 17 blank) ((migrated false).newBlock calm).2 ∧
      ((migrated false).newBlock calm).1 = .ok 1 ∧
      ¬((migrated false).newBlock calm).2.MarksExact := by
  refine ⟨.tail (.single (step_migrated trivial)) ⟨.newBlock calm, trivial, trivial, rfl⟩, ?_,
    fun hexact => ?_⟩
  · rfl
  · have hmarks : ((migrated false).newBlock calm).2.marks 1 = mappedMarks .static := by decide
    have hindex : ((migrated false).newBlock calm).2.pageIndex 1 = 0 := by decide
    have hmarked := hexact 1
    rw [hmarks, hindex, regionOf_mappedMarks] at hmarked
    have hmoved : (((migrated false).newBlock calm).2.area .static).slot 0 ≠ 1 := by decide
    exact hmoved (hmarked.mp rfl).slot

end Setup

end Sb

end Wpmfs.Vmap
