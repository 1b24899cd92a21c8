import Wpmfs.Migrate.Conserve
import Wpmfs.Mount.Crawl

/-!
# Pages that wear leveling sees

`_int_bottom` drops the hot pages that are not marked in use. Every block that the wear-aware
allocator hands out is marked, and no call takes the mark away; but a mount does, and marks the
blocks of the trees no more. The pages of the static mapping table are first marked by a mount.
-/

namespace Wpmfs.Mount

open Balloc Vmap Migrate

namespace Volume

def setSb (v : Volume) (sb : Sb) : Volume := { v with fs := v.fs.setSb sb }

/-- The trees have no blocks but those that are handed out. -/
def Rooted (v : Volume) : Prop := ∃ l, v.trees = some l ∧ ∀ b ∈ l, v.fs.sb.alloc.InUse b

/-- Every block of the inode table, of a tree of an inode, or of a mapping table is marked. -/
structure Visible (v : Volume) : Prop where
  trees : ∀ l, v.trees = some l → ∀ b ∈ l, (v.fs.sb.marks b).pageUsing = true
  tables : ∀ b, v.IsTable b → (v.fs.sb.marks b).pageUsing = true

end Volume

/-- The calls between two mounts: of the allocator, of whatever builds the trees, of the mapping
tables, and of the migrations. Hot pages are those that `_int_bottom` does not drop. -/
inductive Step (v t : Volume) : Prop where
  | newBlock (o : Surroundings) (h : t = v.setSb (v.fs.sb.newBlock o).2)
  | freeBlock (o : Surroundings) (b : ℕ) (sb : Sb) (hfree : v.fs.sb.freeBlock o b = some sb)
      (h : t = v.setSb sb)
  | store (halloc : t.fs.sb.alloc = v.fs.sb.alloc) (harea : t.fs.sb.area = v.fs.sb.area)
      (henabled : t.vmapEnabled = v.vmapEnabled) (hhead : t.headBlocknr = v.headBlocknr)
      (hpages : t.numPages = v.numPages)
  | map (b : ℕ) (henabled : v.vmapEnabled = true)
      (h : t = v.setSb (v.fs.sb.wpmfsMapDynamicPage b))
  /-- `wpmfs_confirm_mptable_dynamic`. -/
  | confirm (h : t = { v with numPages := (v.fs.sb.area .dynamic).pages })
  | rmap (o o' : Surroundings) (junk b : ℕ) (fs : Fs)
      (hmigrate : v.fs.levelTypeRmap o o' junk b = some fs) (h : t = { v with fs := fs })
  | vmap (o o' : Surroundings) (b : ℕ) (sb : Sb) (husing : (v.fs.sb.marks b).pageUsing = true)
      (hmigrate : v.fs.sb.levelTypeVmap o o' b = some sb) (h : t = v.setSb sb)
  | stranded (b : ℕ) (h : t = { v with fs := Migration.levelTypeStranded v.fs b })
  | tired (o : Surroundings) (junk levelPtr idx bp : ℕ) (sb : Sb)
      (hreplace : Fs.wpmfsReplaceTiredPage o junk v.fs.sb levelPtr idx = some (bp, sb))
      (h : t = v.setSb sb)

/-- All blocks of trees and tables are marked when the rebuild begins, or it marks them: it tries
every block when there is none with a clear bit. -/
def Remarked (u : Setup) (v : Volume) (sb : Sb) (crawled : List ℕ) : Prop :=
  ∀ b, b ∈ crawled ∨ v.IsTable b → (sb.marks b).pageUsing = true ∨ b ∈ tried u crawled

/-- Runs in which the mounts meet the condition `ok`, and the trees keep to blocks that are handed
out. -/
abbrev Runs (ok : Setup → Volume → Sb → List ℕ → Prop) : Volume → Volume → Prop :=
  Relation.ReflTransGen fun v t => t.Rooted ∧
    (Step v t ∨ ∃ u sb crawled, Mounts u v sb crawled t ∧ ok u t sb crawled)

/-! ## What a call does to the marks -/

variable {sb s t : Sb} {o o' : Surroundings} {b q x : ℕ} {m : PageMarks}

/-- The wear-aware allocator: marked pages stay marked, and blocks that are newly handed out are. -/
structure Grows (s t : Sb) : Prop where
  wear : t.alloc.isWear = true
  marks : ∀ x, (s.marks x).pageUsing = true → (t.marks x).pageUsing = true
  inUse : ∀ x, t.alloc.InUse x → s.alloc.InUse x ∨ (t.marks x).pageUsing = true

theorem Grows.trans {r : Sb} (h : Grows r s) (h' : Grows s t) : Grows r t where
  wear := h'.wear
  marks x hx := h'.marks x (h.marks x hx)
  inUse x hx := by
    rcases h'.inUse x hx with hx | hx
    · exact (h.inUse x hx).imp_right (h'.marks x)
    · exact .inr hx

theorem Grows.of_alloc (hwear : s.alloc.isWear = true) (halloc : t.alloc = s.alloc) :
    Grows s t := by
  have hmarks : t.marks = s.marks := congrArg Factory.pageMarks halloc
  refine ⟨halloc ▸ hwear, fun x hx => ?_, fun x hx => .inl (halloc ▸ hx)⟩
  rw [hmarks]
  exact hx

/-- An allocation that fails changes nothing. -/
theorem wpmfsNewBlock_error {r sbi : BinAlloc} {e : Errno}
    (hnew : r.wpmfsNewBlock = (.error e, sbi)) : sbi = r := by
  unfold BinAlloc.wpmfsNewBlock at hnew
  grind

theorem grows_newBlock (hwear : s.alloc.isWear = true) : Grows s (s.newBlock o).2 := by
  cases halloc : s.alloc with
  | ranges r marks =>
    rw [halloc] at hwear
    cases hwear
  | wear r =>
    have hold : s.marks = r.sbi.pageMarks := congrArg Factory.pageMarks halloc
    cases hnew : r.sbi.wpmfsNewBlock with
    | mk res sbi =>
      cases res with
      | error e =>
        obtain rfl := wpmfsNewBlock_error hnew
        refine Grows.of_alloc hwear ?_
        simp [Sb.newBlock, Factory.newBlock, halloc, hnew]
      | ok q =>
        have hmarks : sbi.pageMarks = Function.update r.sbi.pageMarks q .inUse := by
          obtain ⟨-, -, rfl⟩ | ⟨bins, -, -, rfl⟩ := Factory.wpmfsNewBlock_cases hnew <;> rfl
        have hrun : (s.newBlock o).2.alloc =
            .wear { r with sbi := sbi, allocated := q :: r.allocated } := by
          simp [Sb.newBlock, Factory.newBlock, halloc, hnew]
        have hnow : (s.newBlock o).2.marks = Function.update s.marks q .inUse := by
          rw [hold, ← hmarks]
          exact congrArg Factory.pageMarks hrun
        refine ⟨by rw [hrun]; rfl, fun x hx => ?_, fun x hx => ?_⟩
        · rw [hnow]
          by_cases hxq : x = q <;> simp [hxq, hx]
        · rw [hrun] at hx
          rcases List.mem_cons.1 hx with rfl | hx
          · exact .inr (by rw [hnow]; simp)
          · exact .inl (by rw [halloc]; exact hx)

theorem grows_freeBlock (hwear : s.alloc.isWear = true) (hfree : s.freeBlock o b = some t) :
    Grows s t := by
  cases halloc : s.alloc with
  | ranges r marks =>
    rw [halloc] at hwear
    cases hwear
  | wear r =>
    have hold : s.marks = r.sbi.pageMarks := congrArg Factory.pageMarks halloc
    obtain ⟨a, ha, rfl⟩ := Option.map_eq_some_iff.1 hfree
    rw [halloc] at ha
    obtain ⟨r', hcall, rfl⟩ := Option.map_eq_some_iff.1 ha
    obtain ⟨sbi, hsbi, rfl⟩ := Option.map_eq_some_iff.1 hcall
    have hmarks : sbi.pageMarks = Function.update s.marks b .inUse := by
      unfold BinAlloc.wpmfsFreeBlock at hsbi
      dsimp only at hsbi
      split at hsbi
      · cases hsbi
      · obtain rfl := Option.some.inj hsbi
        rw [hold]
    refine ⟨rfl, fun x hx => ?_, fun x hx => .inl ?_⟩
    · have hnow : (sbi.pageMarks x).pageUsing = true := by
        rw [hmarks]
        by_cases hxb : x = b <;> simp [hxb, hx]
      exact hnow
    · rw [halloc]
      exact List.mem_of_mem_erase hx

theorem grows_markPage (hwear : s.alloc.isWear = true)
    (hm : (s.marks b).pageUsing = true → m.pageUsing = true)
    (halloc : t.alloc = s.alloc.markPage b m) : Grows s t := by
  have hmarks : t.marks = Function.update s.marks b m :=
    (congrArg Factory.pageMarks halloc).trans Factory.markPage_pageMarks
  refine ⟨by rw [halloc, Factory.markPage_isWear, hwear], fun x hx => ?_, fun x hx => .inl ?_⟩
  · rw [hmarks]
    by_cases hxb : x = b
    · subst hxb
      rw [Function.update_self]
      exact hm hx
    · rwa [Function.update_of_ne hxb]
  · rw [halloc] at hx
    exact Factory.markPage_inUse.1 hx

/-! ## What the migrations do -/

theorem grows_migrateTo (hwear : s.alloc.isWear = true) (husing : (s.marks b).pageUsing = true)
    (hmigrate : s.migrateTo o b q = some t) : Grows s t := by
  have hmarked : Grows s (s.inherit b q) := grows_markPage hwear (fun _ => husing) rfl
  unfold Sb.migrateTo at hmigrate
  dsimp only at hmigrate
  split at hmigrate
  · exact hmarked.trans (grows_freeBlock hmarked.wear hmigrate)
  · have hmoved : Grows (s.inherit b q) ((s.inherit b q).moveSlot
        (Sb.regionOf ((s.inherit b q).marks b)) ((s.inherit b q).pageIndex b) b q) :=
      Grows.of_alloc hmarked.wear rfl
    exact (hmarked.trans hmoved).trans (grows_freeBlock hmoved.wear hmigrate)

theorem grows_levelTypeVmap (hwear : s.alloc.isWear = true)
    (husing : (s.marks b).pageUsing = true) (hmigrate : s.levelTypeVmap o o' b = some t) :
    Grows s t := by
  have hnew := grows_newBlock (o := o) hwear
  unfold Sb.levelTypeVmap at hmigrate
  split at hmigrate
  all_goals
    rename_i heq
    rw [heq] at hnew
  · exact hnew.trans (grows_migrateTo hnew.wear (hnew.marks b husing) hmigrate)
  · exact Option.some.inj hmigrate ▸ hnew
  · exact hnew.trans (grows_migrateTo hnew.wear (hnew.marks b husing) hmigrate)

theorem grows_rmapTo (fs : Fs) {fs' : Fs} (hwear : fs.sb.alloc.isWear = true)
    (hmigrate : fs.rmapTo o b q = some fs') : Grows fs.sb fs'.sb := by
  unfold Fs.rmapTo at hmigrate
  split at hmigrate
  · cases hmigrate
  all_goals
    rename_i hcore
    obtain ⟨sb, hfree, rfl⟩ := Option.map_eq_some_iff.1 hmigrate
    have hsame := Grows.of_alloc hwear (Migration.core_alloc hcore)
    exact hsame.trans (grows_freeBlock hsame.wear hfree)

theorem grows_levelTypeRmap {fs fs' : Fs} {junk : ℕ} (hwear : fs.sb.alloc.isWear = true)
    (hmigrate : fs.levelTypeRmap o o' junk b = some fs') : Grows fs.sb fs'.sb := by
  have hnew := grows_newBlock (o := o) hwear
  have hsame : Grows fs.sb fs.sb := Grows.of_alloc hwear rfl
  unfold Fs.levelTypeRmap at hmigrate
  split at hmigrate
  · exact Option.some.inj hmigrate ▸ hsame
  · split at hmigrate
    · exact Option.some.inj hmigrate ▸ hsame
    · split at hmigrate
      all_goals
        rename_i heq
        rw [heq] at hnew
      · exact hnew.trans (grows_rmapTo (fs.setSb _) hnew.wear hmigrate)
      · exact Option.some.inj hmigrate ▸ hnew
      · exact hnew.trans (grows_rmapTo (fs.setSb _) hnew.wear hmigrate)

theorem grows_wpmfsReplaceTiredPage {junk levelPtr idx bp : ℕ} (hwear : s.alloc.isWear = true)
    (hreplace : Fs.wpmfsReplaceTiredPage o junk s levelPtr idx = some (bp, t)) : Grows s t := by
  have hnew := grows_newBlock (o := o) hwear
  unfold Fs.wpmfsReplaceTiredPage at hreplace
  split at hreplace
  all_goals
    rename_i heq
    rw [heq] at hnew
  · obtain ⟨u, hmove, hu⟩ := Option.map_eq_some_iff.1 hreplace
    cases hu
    exact hnew.trans (Grows.of_alloc hnew.wear (Migration.movePointer_alloc hmove))
  · cases hreplace
    exact hnew
  · obtain ⟨u, hmove, hu⟩ := Option.map_eq_some_iff.1 hreplace
    cases hu
    exact hnew.trans (Grows.of_alloc hnew.wear (Migration.movePointer_alloc hmove))

theorem grows_levelTypeStranded {fs : Fs} (hwear : fs.sb.alloc.isWear = true) :
    Grows fs.sb (Migration.levelTypeStranded fs b).sb := by
  unfold Migration.levelTypeStranded
  split
  · exact grows_markPage (m := { fs.sb.marks b with pageTired := true }) hwear (fun h => h) rfl
  · exact Grows.of_alloc hwear rfl

/-! ## Runs -/

variable {v w : Volume} {u : Setup} {crawled : List ℕ}

theorem Step.grows (h : Step v w) (hwear : v.fs.sb.alloc.isWear = true) :
    Grows v.fs.sb w.fs.sb := by
  cases h with
  | newBlock o h =>
    subst h
    exact grows_newBlock hwear
  | freeBlock o b sb hfree h =>
    subst h
    exact grows_freeBlock hwear hfree
  | store halloc => exact Grows.of_alloc hwear halloc
  | map b _ h =>
    subst h
    exact grows_markPage hwear (fun _ => rfl) rfl
  | confirm h =>
    subst h
    exact Grows.of_alloc hwear rfl
  | rmap o o' junk b fs hmigrate h =>
    subst h
    exact grows_levelTypeRmap hwear hmigrate
  | vmap o o' b sb husing hmigrate h =>
    subst h
    exact grows_levelTypeVmap hwear husing hmigrate
  | stranded b h =>
    subst h
    exact grows_levelTypeStranded hwear
  | tired o junk levelPtr idx bp sb hreplace h =>
    subst h
    exact grows_wpmfsReplaceTiredPage hwear hreplace

theorem Step.vmapEnabled (h : Step v w) : w.vmapEnabled = v.vmapEnabled := by
  cases h with
  | store _ _ henabled => exact henabled
  | newBlock _ h | freeBlock _ _ _ _ h | map _ _ h | confirm h | rmap _ _ _ _ _ _ h
  | vmap _ _ _ _ _ _ h | stranded _ h | tired _ _ _ _ _ _ _ h =>
    subst h
    rfl

/-- The invariant: blocks that are handed out are marked. `vmap` is off. -/
structure Marked (v : Volume) : Prop where
  wear : v.fs.sb.alloc.isWear = true
  off : v.vmapEnabled = false
  held : ∀ b, v.fs.sb.alloc.InUse b → (v.fs.sb.marks b).pageUsing = true
  rooted : v.Rooted

theorem Marked.visible (h : Marked v) : v.Visible where
  trees l hl b hb := by
    obtain ⟨l', hl', hheld⟩ := h.rooted
    obtain rfl := Option.some.inj (hl.symm.trans hl')
    exact h.held b (hheld b hb)
  tables b hb := by
    have henabled := hb.1
    rw [h.off] at henabled
    cases henabled

theorem Marked.step (h : Marked v) (hstep : Step v w) (hrooted : w.Rooted) : Marked w := by
  have hgrows := hstep.grows h.wear
  refine ⟨hgrows.wear, hstep.vmapEnabled.trans h.off, fun b hb => ?_, hrooted⟩
  rcases hgrows.inUse b hb with hb | hb
  · exact hgrows.marks b (h.held b hb)
  · exact hb

/-- A mount meets the condition just when the trees, and the tables, are marked after it. -/
theorem Mounts.remarked_iff (h : Mounts u v sb crawled w) (hroot : w.table.root ≠ 0) :
    Remarked u w sb crawled ↔ w.Visible := by
  have hmarks := fun b => setupBlocknodeMap_marks (b := b) h.setup
  constructor
  · intro hok
    refine ⟨fun l hl b hb => ?_, fun b hb => (hmarks b).2 (hok b (.inr hb))⟩
    obtain rfl := Option.some.inj (hl.symm.trans (h.trees hroot))
    exact (hmarks b).2 (hok b (.inl hb))
  · rintro hvisible b (hb | hb)
    · exact (hmarks b).1 (hvisible.trees _ (h.trees hroot) b hb)
    · exact (hmarks b).1 (hvisible.tables b hb)

theorem Marked.mount (h : Marked v) (hmount : Mounts u v sb crawled w)
    (hok : Remarked u w sb crawled) (hrooted : w.Rooted) : Marked w := by
  refine ⟨(setupBlocknodeMap_eq hmount.setup).2, hmount.vmapEnabled.trans h.off, fun b hb => ?_,
    hrooted⟩
  obtain ⟨hpos, hlt⟩ := setupBlocknodeMap_inUse hmount.setup hb
  refine (setupBlocknodeMap_marks hmount.setup).2 ?_
  by_cases hcrawled : b ∈ crawled
  · exact hok b (.inl hcrawled)
  · exact .inr (mem_tried hpos hlt hcrawled)

theorem Marked.runs (h : Marked v) (hrun : Runs Remarked v w) : Marked w := by
  induction hrun with
  | refl => exact h
  | tail _ hstep ih =>
    obtain ⟨hrooted, hstep | ⟨u, sb, crawled, hmount, hok⟩⟩ := hstep
    · exact ih.step hstep hrooted
    · exact ih.mount hmount hok hrooted

/-! ## From the format on -/

theorem marked_format {n : ℕ} {fs : Fs} : Marked (format u false n fs) := by
  refine ⟨rfl, rfl, fun b hb => ?_, [], rfl, nofun⟩
  have halloc : (format u false n fs).fs.sb.alloc = .start true n (u.initsize / 4096) u.numBins
      (4096 * n) (clearMarks u fs.sb).alloc.pageMarks := rfl
  rw [halloc, Factory.start_inUse, reservedBlocks] at hb
  omega

/-- The page of the head of the mapping tables is not marked by the setup of the tables. -/
theorem not_visible_format {n : ℕ} {fs : Fs} (hsize : 0 < u.initsize / 4096) :
    ¬(format u true n fs).Visible := by
  intro h
  have hpos : 0 < Sb.mapPages n := Sb.mapPages_pos
  have hinit : (format u true n fs).fs.sb =
      Sb.hardInit true (u.initsize / 4096) u.numBins n (clearMarks u fs.sb) := rfl
  have hmarks : (Sb.hardInit true (u.initsize / 4096) u.numBins n (clearMarks u fs.sb)).marks 0 =
      (Sb.setupTable (Sb.mapPages n + n) 10
        (Sb.setupVmapStatic n (clearMarks u fs.sb))).marks 0 := by
    rw [Sb.marks, Sb.hardInit, Factory.start_pageMarks]
    rfl
  have hclear : (format u true n fs).fs.sb.marks 0 = {} := by
    rw [hinit, hmarks, Sb.setupTable_marks, if_neg (by omega)]
    refine Sb.setupSlots_marks.trans ?_
    rw [if_neg (by omega)]
    exact if_pos hsize
  have husing := h.tables 0 ⟨rfl, .inl Sb.mapPages_pos⟩
  rw [hclear] at husing
  cases husing

/-- Eight blocks, with four bins. -/
def smallSetup : Setup := ⟨4, 17, fun _ => 0, 32768⟩

/-- Pages that were never used, and no inodes. -/
def blankFs : Fs where
  sb := Sb.blank
  inode _ := none
  freeing _ := false
  mapping _ := none
  transHuge _ := false
  iPages _ _ := none

/-- The volume once its inode table has its first block, the block 1. -/
def small : Volume :=
  let v := format smallSetup false 1 blankFs
  { v.setSb (v.fs.sb.newBlock Sb.calm).2 with table := ⟨4096, 0⟩ }

theorem runs_small {ok : Setup → Volume → Sb → List ℕ → Prop} :
    Runs ok (format smallSetup false 1 blankFs) small := by
  have hnew : Runs ok (format smallSetup false 1 blankFs) ((format smallSetup false 1
      blankFs).setSb ((format smallSetup false 1 blankFs).fs.sb.newBlock Sb.calm).2) :=
    .single ⟨⟨[], rfl, nofun⟩, .inl (.newBlock Sb.calm rfl)⟩
  refine hnew.tail ⟨⟨[1], by decide, fun b hb => ?_⟩, .inl (.store rfl rfl rfl rfl rfl)⟩
  obtain rfl := List.mem_singleton.1 hb
  exact List.mem_cons_self ..

theorem not_mem_tried_small : 1 ∉ tried smallSetup [1] := by
  intro h
  obtain ⟨-, ⟨-, hbit⟩ | hall⟩ := mem_visited.1 h
  · exact absurd hbit (by decide)
  · exact absurd (hall 2 (by decide) (by decide)) (by decide)

/-- The rebuild frees the blocks of the small volume but that of the inode table. -/
theorem exists_mounts_small : ∃ t,
    Mounts smallSetup small (clearMarks smallSetup small.fs.sb) [1] t ∧
      t.table = small.table ∧ t.Rooted := by
  let s : BinAlloc :=
    { blockStart := 0
      blockEnd := 0
      numFreeBlocks := 0
      unusedBlockLow := 0
      unusedBlockHigh := 0
      blockBins := List.replicate 4 []
      pageMarks := (clearMarks smallSetup small.fs.sb).marks }
  let s' := BinAlloc.wpmfsInitBlockmap { s with blockEnd := 8, numFreeBlocks := 8 } 32768
  have hfreeable : ∀ b ∈ s'.unmarked (tried smallSetup [1]),
      BinAlloc.Freeable 17 (fun _ => 0) b := by
    intro b hb
    have hzero : 0 ≤ toInt ((0 : UInt64).toNat / getIntThresSize 17) := by decide
    refine ⟨?_, hzero⟩
    rintro rfl
    obtain ⟨-, ⟨hpos, -⟩ | hall⟩ := mem_visited.1 (BinAlloc.mem_unmarked.1 hb).1
    · omega
    · exact absurd (hall 2 (by decide) (by decide)) (by decide)
  obtain ⟨sbi, hsbi⟩ := (BinAlloc.tryFree_some_iff (by decide) BinAlloc.visited_nodup).2 hfreeable
  have hperm := BinAlloc.tryFree_perm (by decide) BinAlloc.visited_nodup hsbi
  have hrebuild : s.wpmfsSetupBlocknodeMap 17 (fun _ => 0) (bitmap [1]) 32768 = some sbi :=
    (BinAlloc.wpmfsBuildBlocknodeMap_eq s' (by decide)).trans hsbi
  have hsetup : ∃ sb, setupBlocknodeMap smallSetup [1] (clearMarks smallSetup small.fs.sb) =
      some sb ∧ sb.alloc.InUse 1 ∧ sb = { small.fs.sb with alloc := sb.alloc } := by
    refine ⟨_, congrArg (Option.map _) hrebuild, ?_, rfl⟩
    refine List.mem_filter.2 ⟨by decide, ?_⟩
    rw [decide_eq_true_iff, hperm.mem_iff, List.mem_append, BinAlloc.mem_unmarked]
    rintro (⟨htried, -⟩ | hbins)
    · exact not_mem_tried_small htried
    · exact absurd hbins (by decide)
  obtain ⟨sb, hsb, huse, hsame⟩ := hsetup
  have hcrawl : wpmfsInodeTableCrawlRecursive (clearMarks smallSetup small.fs.sb) 0 4096 =
      some [1] := by decide
  have hmounts : Mounts smallSetup small (clearMarks smallSetup small.fs.sb) [1]
      (small.setSb sb) := ⟨.refl, hcrawl, hsb, rfl, rfl, rfl⟩
  refine ⟨_, hmounts, rfl, [1], hmounts.trees (show small.table.root ≠ 0 by decide), fun b hb => ?_⟩
  rw [List.mem_singleton.1 hb]
  exact huse

end Wpmfs.Mount
