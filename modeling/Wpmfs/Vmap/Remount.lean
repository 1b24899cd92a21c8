import Wpmfs.Vmap.Marks

/-!
# The static mapping at the next mount

`recv_vmap_static` maps the reserved pages again, from the table that the image holds. Its two loops
go one round too far: the first marks the block after the table, the second reads the word after the
last slot, stores behind the end of `ppages`, and marks the page of the block that the word names.
-/

namespace Wpmfs.Vmap

open Balloc

/-- The state of `recv_vmap_static`: the slots it has read, and `ppages`, by the blocks of the
pages. -/
structure Recv where
  sb : Sb
  read : List ℕ
  ppages : ℕ → Option ℕ

namespace Sb

variable {s s' t : Sb} {r : Region} {b j k n x : ℕ} {mptable beyond : ℕ → ℕ} {v : Recv}

/-- The first loop of `recv_vmap_static`, `count` rounds of it. -/
def markTable : (count : ℕ) → Sb → Sb
  | 0, s => s
  | curPage + 1, s =>
    let s := markTable curPage s
    { s with alloc := s.alloc.markPage curPage .inUse }

/-- One round of the second loop. -/
def recvSlot (mptable : ℕ → ℕ) (curPage : ℕ) (v : Recv) : Recv :=
  let blocknr := mptable curPage
  { sb := { v.sb with
      alloc := v.sb.alloc.markPage blocknr (mappedMarks .static)
      pageIndex := Function.update v.sb.pageIndex blocknr curPage }
    read := curPage :: v.read
    ppages := Function.update v.ppages curPage (some blocknr) }

/-- The second loop, `count` rounds of it. -/
def recvSlots (mptable : ℕ → ℕ) : (count : ℕ) → Recv → Recv
  | 0, v => v
  | curPage + 1, v => recvSlot mptable curPage (recvSlots mptable curPage v)

/-- `recv_vmap_static` with `num_pages` being `n`, `vmalloc` and `vmap` succeeding. -/
def recvVmapStatic (n : ℕ) (mptable : ℕ → ℕ) (s : Sb) : Recv :=
  let v := recvSlots mptable (n + 1) ⟨markTable (mapPages n + 1) s, [], fun _ => none⟩
  let m : Area := ⟨mptable, mptable, fun k => if k < n then v.ppages k else none, n⟩
  { v with sb := v.sb.setArea .static m }

/-- The words from the first slot of the static table on, at the next mount. After the slots there
is the rest of the page, or the next page. -/
def image (s : Sb) (beyond : ℕ → ℕ) (k : ℕ) : ℕ :=
  if k < (s.area .static).pages then (s.area .static).flushed k else beyond k

/-- The static mapping of `s` is restored, with the marks that belong to it, and the loops stay
inside of the table. -/
structure Restores (s : Sb) (v : Recv) : Prop where
  mapping : ∀ k < (s.area .static).pages, (v.sb.area .static).pte k = (s.area .static).pte k
  read : ∀ k ∈ v.read, k < (s.area .static).pages
  ppages : ∀ k, v.ppages k ≠ none → k < (s.area .static).pages
  marked : ∀ b, (v.sb.marks b).pageVmap = true ↔ ∃ k < (s.area .static).pages,
    (s.area .static).pte k = some b ∧ v.sb.pageIndex b = k
  table : ∀ b < mapPages (s.area .static).pages, v.sb.marks b = .inUse

/-! ## The loops -/

theorem markTable_marks : (markTable n s).marks x = if x < n then .inUse else s.marks x := by
  induction n with
  | zero => rfl
  | succ n ih =>
    have hstep : (markTable (n + 1) s).marks x =
        if x = n then .inUse else (markTable n s).marks x := by
      simp only [markTable, marks, Factory.markPage_pageMarks, Function.update_apply]
    rw [hstep, ih]
    split_ifs <;> first | rfl | omega

theorem recvSlots_ppages : (recvSlots mptable n v).ppages k =
    if k < n then some (mptable k) else v.ppages k := by
  induction n with
  | zero => rfl
  | succ n ih =>
    simp only [recvSlots, recvSlot, Function.update_apply, ih]
    split_ifs <;> grind

theorem recvSlots_read : k ∈ (recvSlots mptable n v).read ↔ k < n ∨ k ∈ v.read := by
  induction n with
  | zero => simp [recvSlots]
  | succ n ih =>
    simp only [recvSlots, recvSlot, List.mem_cons, ih]
    grind

/-- A page that one of the slots names is marked. -/
theorem recvSlots_marks (mptable : ℕ → ℕ) : (recvSlots mptable n v).sb.marks b =
    if ∃ k < n, mptable k = b then mappedMarks .static else v.sb.marks b := by
  induction n with
  | zero => simp [recvSlots]
  | succ n ih =>
    have hstep : (recvSlots mptable (n + 1) v).sb.marks b =
        if b = mptable n then mappedMarks .static else (recvSlots mptable n v).sb.marks b := by
      simp only [recvSlots, recvSlot, marks, Factory.markPage_pageMarks, Function.update_apply]
    rw [hstep, ih]
    by_cases hb : b = mptable n
    · rw [if_pos hb, if_pos ⟨n, n.lt_succ_self, hb.symm⟩]
    · rw [if_neg hb]
      exact if_congr (exists_congr fun k => by grind) rfl rfl

/-- The last of the slots that name a page gives its index. -/
theorem recvSlots_pageIndex (hk : k < n) (hlast : ∀ j, k < j → j < n → mptable j ≠ mptable k) :
    (recvSlots mptable n v).sb.pageIndex (mptable k) = k := by
  induction n with
  | zero => omega
  | succ n ih =>
    simp only [recvSlots, recvSlot, Function.update_apply]
    by_cases hkn : k = n
    · rw [if_pos (by rw [hkn]), hkn]
    · rw [if_neg (hlast n (by omega) n.lt_succ_self).symm]
      exact ih (by omega) fun j hj hlt => hlast j hj (by omega)

/-! ## The table and the page table -/

/-- The static table is persistent, and the page table follows it. -/
def StaticKept (s : Sb) : Prop := ∀ k < (s.area .static).pages,
  (s.area .static).flushed k = (s.area .static).slot k ∧
    (s.area .static).pte k = some ((s.area .static).slot k)

/-- The static table is not changed. -/
theorem StaticKept.of_area (h : s.StaticKept) (harea : s'.area .static = s.area .static) :
    s'.StaticKept := by
  rw [StaticKept, harea]
  exact h

theorem StaticKept.moveSlot {q : ℕ} (h : s.StaticKept) : (s.moveSlot r k b q).StaticKept := by
  cases r with
  | dynamic => exact h.of_area (by simp [Sb.moveSlot])
  | static =>
    intro j hj
    have hj' : j < (s.area .static).pages := by
      simpa [Sb.moveSlot, Area.flushSlot, Area.setSlot, Area.setPte] using hj
    obtain ⟨hflushed, hpte⟩ := h j hj'
    simp only [Sb.moveSlot, Area.flushSlot, Area.setSlot, Area.setPte, Function.update_self,
      Function.update_apply]
    grind

theorem StaticKept.freeBlock {o : Surroundings} (h : s.StaticKept)
    (hfree : s.freeBlock o b = some s') : s'.StaticKept := by
  obtain ⟨a, -, rfl⟩ := Option.map_eq_some_iff.mp hfree
  exact h

theorem StaticKept.migrateTo {o : Surroundings} {q : ℕ} (h : s.StaticKept)
    (hmigrate : s.migrateTo o b q = some s') : s'.StaticKept := by
  have hinherit : (s.inherit b q).StaticKept := h
  unfold Sb.migrateTo at hmigrate
  dsimp only at hmigrate
  split at hmigrate
  · exact hinherit.freeBlock hmigrate
  · exact hinherit.moveSlot.freeBlock hmigrate

theorem StaticKept.newBlock {o : Surroundings} (h : s.StaticKept) : (s.newBlock o).2.StaticKept := h

theorem StaticKept.levelTypeVmap {o o' : Surroundings} (h : s.StaticKept)
    (hmigrate : s.levelTypeVmap o o' b = some s') : s'.StaticKept := by
  have hnew := h.newBlock (o := o)
  unfold Sb.levelTypeVmap at hmigrate
  split at hmigrate
  all_goals
    rename_i heq
    rw [heq] at hnew
  · exact hnew.migrateTo hmigrate
  · obtain rfl := Option.some.inj hmigrate
    exact hnew
  · exact hnew.migrateTo hmigrate

theorem StaticKept.step {ok : Sb → Call → Prop} (h : s.StaticKept) (hstep : Step ok s s') :
    s'.StaticKept := by
  obtain ⟨c, -, -, hexec⟩ := hstep
  cases c with
  | newBlock o =>
    cases hexec
    exact h.newBlock
  | freeBlock b o => exact h.freeBlock hexec
  | map b =>
    cases hexec
    exact h.of_area (by simp [wpmfsMapDynamicPage])
  | migrate b o o' => exact h.levelTypeVmap hexec

theorem StaticKept.reaches {ok : Sb → Call → Prop} (h : s.StaticKept) (hrun : Reaches ok s s') :
    s'.StaticKept := by
  induction hrun with
  | refl => exact h
  | tail _ hstep ih => exact ih.step hstep

theorem staticKept_hardInit {wear : Bool} {blockEnd numBins : ℕ} :
    (hardInit wear blockEnd numBins n s).StaticKept := by
  refine StaticKept.of_area (s := setupVmapStatic n s) (fun k hk => ?_) hardInit_static
  rw [setupVmapStatic, setArea_self] at hk ⊢
  obtain ⟨hslot, hpte⟩ := setupSlots_static (mapPages n) s hk
  exact ⟨rfl, by rw [hpte, hslot]⟩

/-! ## Remounts -/

theorem recvVmapStatic_read : n ∈ (recvVmapStatic n mptable s).read :=
  recvSlots_read.mpr (.inl n.lt_succ_self)

theorem recvVmapStatic_pte (hk : k < n) :
    ((recvVmapStatic n mptable s).sb.area .static).pte k = some (mptable k) := by
  rw [recvVmapStatic, setArea_self]
  dsimp only
  rw [if_pos hk, recvSlots_ppages, if_pos (by omega)]

/-- The word after the last slot counts as a slot. -/
theorem recvVmapStatic_beyond (n : ℕ) (mptable : ℕ → ℕ) (s : Sb) :
    ((recvVmapStatic n mptable s).sb.marks (mptable n)).pageVmap = true ∧
    (recvVmapStatic n mptable s).sb.pageIndex (mptable n) = n := by
  refine ⟨?_, recvSlots_pageIndex n.lt_succ_self fun j hj hlt => by omega⟩
  have hmarks := recvSlots_marks mptable (n := n + 1) (b := mptable n)
    (v := ⟨markTable (mapPages n + 1) s, [], fun _ => none⟩)
  rw [if_pos ⟨n, n.lt_succ_self, rfl⟩] at hmarks
  exact congrArg PageMarks.pageVmap hmarks

/-- After any run from the setup on, the mapping comes back as it was, but the loops go past the end
of the table and of `ppages`, and the page that the word after the table names is marked. -/
theorem Reaches.remount {ok : Sb → Call → Prop} {wear : Bool} {blockEnd numBins : ℕ}
    (hrun : Reaches ok (hardInit wear blockEnd numBins n s) s') :
    let v := Sb.recvVmapStatic (s'.area .static).pages (s'.image beyond) t
    (∀ k < (s'.area .static).pages, (v.sb.area .static).pte k = (s'.area .static).pte k) ∧
      (v.sb.marks (beyond (s'.area .static).pages)).pageVmap = true ∧
      v.sb.pageIndex (beyond (s'.area .static).pages) = (s'.area .static).pages ∧
      ¬s'.Restores v := by
  have hkept := staticKept_hardInit.reaches hrun
  have hbeyond := recvVmapStatic_beyond (s'.area .static).pages (s'.image beyond) t
  rw [image, if_neg (lt_irrefl _)] at hbeyond
  refine ⟨fun k hk => ?_, hbeyond.1, hbeyond.2, fun h => ?_⟩
  · obtain ⟨hflushed, hpte⟩ := hkept k hk
    rw [recvVmapStatic_pte hk, image, if_pos hk, hflushed, hpte]
  · exact lt_irrefl _ (h.read _ recvVmapStatic_read)

/-- The word after the table is 0: the page of the block 0, which holds the table, is marked. -/
theorem not_restores_migrated : Reaches KeepsMarks (hardInit true 64 4 17 blank) (migrated true) ∧
    ¬(migrated true).Restores (recvVmapStatic 17 ((migrated true).image fun _ => 0) blank) := by
  refine ⟨.single (step_migrated rfl), fun h => ?_⟩
  have htable := h.table 0 (by decide)
  have hbeyond := (recvVmapStatic_beyond 17 ((migrated true).image fun _ => 0) blank).1
  rw [show (migrated true).image (fun _ => 0) 17 = 0 by decide, htable] at hbeyond
  cases hbeyond

/-- The page of the slot 0 was migrated. -/
theorem remount_migrated :
    let v := recvVmapStatic 17 ((migrated true).image fun _ => 0) blank
    (v.sb.area .static).pte 0 = ((migrated true).area .static).pte 0 := by
  have hrun : Reaches KeepsMarks (hardInit true 64 4 17 blank) (migrated true) :=
    .single (step_migrated rfl)
  have hpte : ∀ k < 17, ((recvVmapStatic 17 ((migrated true).image fun _ => 0) blank).sb.area
      .static).pte k = ((migrated true).area .static).pte k := And.left hrun.remount
  exact hpte 0 (by decide)

end Sb

end Wpmfs.Vmap
