import Wpmfs.File.Edges

/-!
# Writes that stop early

The blocks of a write are not zeroed when they are allocated. Where the bytes of the user end before
the write does, what a new block had before is left in the file, but for the edges.
-/

namespace Wpmfs.File

variable {f f' : File} {s s' : Env} {w : Write} {h k n i blocknr num first last : ℕ}
  {mem : ℕ → ℕ → UInt8} {err : Option Error}

/-! ## An allocation does not look into blocks -/

def Heap.withMem (s : Heap) (mem : ℕ → ℕ → UInt8) : Heap := { s with mem := mem }

def Alloc.withMem {α : Type} (r : Alloc α) (mem : ℕ → ℕ → UInt8) : Alloc α :=
  { r with heap := r.heap.withMem mem }

theorem pmfsNewBlock_withMem (s : Heap) (l : ℕ) :
    (s.withMem mem).pmfsNewBlock l = ((s.pmfsNewBlock l).1, (s.pmfsNewBlock l).2.withMem mem) := by
  rw [Heap.pmfsNewBlock, Heap.pmfsNewBlock]
  have hnode : (s.withMem mem).node 0 = s.node 0 := rfl
  rw [hnode]
  cases s.node 0 <;> rfl

theorem pmfsNewDataBlock_withMem (s : Heap) :
    (s.withMem mem).pmfsNewDataBlock false =
      ((s.pmfsNewDataBlock false).1, (s.pmfsNewDataBlock false).2.withMem mem) := by
  rw [Heap.pmfsNewDataBlock, Heap.pmfsNewDataBlock]
  have hdata : (s.withMem mem).data 0 = s.data 0 := rfl
  rw [hdata]
  cases s.data 0 <;> rfl

theorem allocSlots_withMem {slot : ℕ → Slot h → Heap → Alloc (Slot h)} {node : ℕ → Slot h}
    {s : Heap} (hslot : ∀ i c s, slot i c (s.withMem mem) = (slot i c s).withMem mem) :
    allocSlots slot n i node (s.withMem mem) = (allocSlots slot n i node s).withMem mem := by
  induction n generalizing i node s with
  | zero => rfl
  | succ n ih =>
    rw [allocSlots, allocSlots, hslot]
    dsimp only [Alloc.withMem]
    cases (slot i (node i) s).errval with
    | none => exact ih
    | some e => rfl

theorem allocData_withMem (slot : Slot 0) (s : Heap) :
    allocData false slot (s.withMem mem) = (allocData false slot s).withMem mem := by
  rw [allocData, allocData, pmfsNewDataBlock_withMem]
  split
  · cases s.pmfsNewDataBlock false with
    | mk r t => cases r <;> rfl
  · rfl

theorem recursiveAllocBlocks_withMem {node : ℕ → Slot h} {s : Heap} :
    recursiveAllocBlocks false h node first last (s.withMem mem) =
      (recursiveAllocBlocks false h node first last s).withMem mem := by
  induction h generalizing first last s with
  | zero => exact allocSlots_withMem fun _ => allocData_withMem
  | succ h ih =>
    have hdescend : ∀ b node first last (s : Heap),
        (⟨.page b (recursiveAllocBlocks false h node first last (s.withMem mem)).val,
          (recursiveAllocBlocks false h node first last (s.withMem mem)).errval,
          (recursiveAllocBlocks false h node first last (s.withMem mem)).heap⟩ :
            Alloc (Slot (h + 1))) =
        (⟨.page b (recursiveAllocBlocks false h node first last s).val,
          (recursiveAllocBlocks false h node first last s).errval,
          (recursiveAllocBlocks false h node first last s).heap⟩ :
            Alloc (Slot (h + 1))).withMem mem := by
      intro b node first last s
      rw [ih]
      rfl
    refine allocSlots_withMem fun i c s => ?_
    cases c with
    | page b node => exact hdescend b node _ _ s
    | null =>
      dsimp only
      rw [pmfsNewBlock_withMem]
      cases s.pmfsNewBlock (h + 1) with
      | mk r t =>
        cases r with
        | error e => rfl
        | ok b => exact hdescend b _ _ _ t

theorem pmfsIncreaseBtreeHeight_withMem (root : Slot h) (s : Heap) :
    pmfsIncreaseBtreeHeight n h root (s.withMem mem) =
      ((pmfsIncreaseBtreeHeight n h root s).1, (pmfsIncreaseBtreeHeight n h root s).2.1,
        (pmfsIncreaseBtreeHeight n h root s).2.2.withMem mem) := by
  induction n generalizing h s with
  | zero => rfl
  | succ n ih =>
    rw [pmfsIncreaseBtreeHeight, pmfsIncreaseBtreeHeight, pmfsNewBlock_withMem]
    cases s.pmfsNewBlock (h + 1) with
    | mk r t =>
      cases r with
      | error e => rfl
      | ok b => exact ih _ _

theorem allocRoot_withMem (root : Slot h) (s : Heap) :
    allocRoot false h root (s.withMem mem) =
      ((allocRoot false h root s).1, (allocRoot false h root s).2.1,
        (allocRoot false h root s).2.2.withMem mem) := by
  rw [allocRoot, allocRoot, pmfsNewDataBlock_withMem]
  split
  · cases s.pmfsNewDataBlock false with
    | mk r t => cases r <;> rfl
  · rfl

theorem allocTree_withMem (root : Slot h) (s : Heap) :
    allocTree false first last h root (s.withMem mem) =
      (allocTree false first last h root s).map fun r => (r.1, r.2.1, r.2.2.withMem mem) := by
  cases root with
  | null => cases h <;> rfl
  | data b => rfl
  | page b node =>
    rw [allocTree, allocTree, recursiveAllocBlocks_withMem]
    rfl

/-- The file after an allocation does not depend on what is in the blocks. -/
theorem pmfsAllocBlocks_withMem :
    pmfsAllocBlocks f blocknr num false { s with mem := mem } =
      (pmfsAllocBlocks f blocknr num false s).map fun (err, f', s') =>
        (err, f', { s' with mem := mem }) := by
  have hheap : f.heap { s with mem := mem } = (f.heap s).withMem mem := rfl
  rw [pmfsAllocBlocks, pmfsAllocBlocks, hheap, allocRoot_withMem, pmfsIncreaseBtreeHeight_withMem]
  split
  · rfl
  · dsimp only
    split
    · rfl
    · cases pmfsIncreaseBtreeHeight (heightFor f.height (blocknr + num - 1) - f.height) f.height
        f.root (f.heap s) with
      | mk err rest =>
        cases err with
        | some e => rfl
        | none =>
          dsimp only
          rw [allocTree_withMem, Option.map_map, Option.map_map]
          rfl

/-! ## What a write exposes -/

/-- From the first byte that cannot be read on, the range of the write is in blocks that are there;
but for the words that are cleared at its edges. -/
def Backed (w : Write) (f : File) : Prop :=
  ∀ x, w.pos + w.readable ≤ x → (w.pos % 4096 ≠ 0 → w.pos / 8 * 8 + 8 ≤ x) →
    x < (w.pos + w.count) / 8 * 8 → pmfsFindDataBlock f (x / 4096) ≠ none

/-- Whatever there was in blocks, a write that stops early keeps the other bytes of the file if and
only if its range is backed from there on. -/
theorem pmfsXipFileWrite_keeps_iff_backed (hs : Sound f s) (hshort : w.readable < w.count)
    (halloc : pmfsAllocBlocks f w.startBlk w.numBlocks false s = some (none, f', s')) :
    (∀ mem, Keeps w f { s with mem := mem } (fun _ => True)
      (pmfsXipFileWrite w f { s with mem := mem })) ↔ (∃ e, Fails w f e) ∨ Backed w f := by
  have hcount : 0 < w.count := by omega
  by_cases hfails : ∃ e, Fails w f e
  · obtain ⟨e, he⟩ := hfails
    exact iff_of_true (fun mem => pmfsXipFileWrite_keeps_of_fails (hs.withMem mem) hcount he)
      (.inl ⟨e, he⟩)
  obtain ⟨htrans, mode, hprivs⟩ := goes_through hfails
  rw [or_iff_right hfails]
  have hend := w.endBlk_eq hcount
  have hran : ∀ mem, w.endBlk < 512 ^ f'.height ∧
      Allocated f w.startBlk w.endBlk false { s with mem := mem } none f' { s' with mem := mem } ∧
      ∃ r, pmfsWriteTransaction w f { s with mem := mem } = some r ∧
        Ran w f f' { s with mem := mem } r := by
    intro mem
    obtain ⟨err, f₁, s₁, halloc₁, hall, -, hran⟩ :=
      pmfsWriteTransaction_ran (hs.withMem mem) hcount htrans hprivs
    rw [pmfsAllocBlocks_withMem, halloc] at halloc₁
    cases halloc₁
    have hlt : w.endBlk < 512 ^ f'.height := by
      refine lt_of_ptr (l := 0) ?_
      rw [← pmfsFindDataBlock_eq]
      exact hall.found rfl _ (by rw [hend, Write.startBlk]; omega) le_rfl
    refine ⟨hlt, hall, hran ?_⟩
    rintro (⟨-, hstray⟩ | ⟨-, hstray⟩)
    · refine not_stray_of_lt (lt_of_le_of_lt ?_ hlt) hstray
      rw [hend, Write.startBlk]
      omega
    · exact not_stray_of_lt hlt hstray
  simp only [pmfsXipFileWrite_keeps hcount htrans hprivs]
  constructor
  · intro hkeeps x hx hlow hhigh hnone
    obtain ⟨hlt, hall, r, hr, hrun⟩ := hran fun _ _ => 1
    obtain ⟨_, hr', hkept⟩ := hkeeps fun _ _ => 1
    cases hr.symm.trans hr'
    have hle := hrun.le
    have hkept := hkept x trivial (by omega)
    obtain ⟨b, hb⟩ := Option.ne_none_iff_exists'.mp (hall.found rfl (x / 4096)
      (by rw [Write.startBlk]; omega) (by rw [hend]; omega))
    rw [hrun.contents, if_neg (by omega), if_neg, contents_of_some hb, contents_of_none hnone]
      at hkept
    · exact absurd hkept (show ¬ (1 : UInt8) = 0 by decide)
    · rw [clears_iff hcount hlt]
      omega
  · intro hbacked mem
    obtain ⟨hlt, hall, r, hr, hrun⟩ := hran mem
    refine ⟨r, hr, fun x _ hx => ?_⟩
    have hwritten : r.written = w.readable := by
      have hreach := hrun.reach (w.endBlk + 1) fun k hk hk' => hall.found rfl k hk (by omega)
      have hle := hrun.le
      omega
    refine hrun.contents_eq hcount hlt hall hx fun hnone hfound => ?_
    rw [hwritten] at hx
    obtain ⟨hfirst, hlast⟩ := hall.within _ hnone hfound
    rw [Write.startBlk] at hfirst
    rw [hend] at hlast
    by_contra hclear
    rw [clears_iff hcount hlt, and_iff_right hnone] at hclear
    exact hbacked x (by omega) (by omega) (by omega) hnone

/-- A new file, of whose five bytes two can be read. -/
theorem pmfsXipFileWrite_keeps_few : Keeps ⟨0, 5, fun _ => 7, 2, none, .ok, fun _ => false⟩
    ⟨0, .null, 0, 0, false, 0⟩ (plenty fun _ _ => 1) (fun _ => True)
    (pmfsXipFileWrite ⟨0, 5, fun _ => 7, 2, none, .ok, fun _ => false⟩
      ⟨0, .null, 0, 0, false, 0⟩ (plenty fun _ _ => 1)) :=
  (pmfsXipFileWrite_keeps_iff_backed (w := ⟨0, 5, fun _ => 7, 2, none, .ok, fun _ => false⟩)
    (s := plenty fun _ _ => 0)
    ⟨⟨by decide, fun _ => rfl, by simp, by simp⟩, plenty_gives (by simp)⟩ (by decide) rfl).mpr
    (.inr fun x _ _ hx => absurd hx (Nat.not_lt_zero x)) fun _ _ => 1

/-- A new file, of whose block no byte can be read. -/
theorem not_keeps_unread : ¬ ∀ (w : Write) (f : File) (s : Env) (f' : File) (s' : Env), Sound f s →
    w.readable < w.count →
    pmfsAllocBlocks f w.startBlk w.numBlocks false s = some (none, f', s') →
    Keeps w f s (fun _ => True) (pmfsXipFileWrite w f s) := by
  intro h
  obtain ⟨r, hr, hkept⟩ := h ⟨0, 4096, fun _ => 7, 0, none, .ok, fun _ => false⟩
    ⟨0, .null, 0, 0, false, 0⟩ (plenty fun _ _ => 1) _ _
    ⟨⟨by decide, fun _ => rfl, by simp, by simp⟩, plenty_gives (by simp)⟩ (by decide) rfl
  cases hr
  exact absurd (hkept 0 trivial (by decide)) (by decide)

end Wpmfs.File
