import Mathlib.Algebra.Order.Ring.Int
import Mathlib.Algebra.Order.Ring.Nat
import Mathlib.Order.Bounds.Basic
import Wpmfs.File.Tree

/-!
# Searches for data and for holes

The search walks the tree from the block of the offset to that of the size, and counts the blocks
that it passes. It takes a file of one block for data up to its end, and goes on behind the end of a
page where the size is beyond what the tree has; and it counts a hole from the first block of its
page on, wherever it starts.
-/

namespace Wpmfs.File

open Spans

/-! ## The search -/

/-- What the search has passed: the number of blocks, and whether data and holes are among them. -/
structure Region where
  blocks : ℕ
  dataFound : Bool
  holeFound : Bool

namespace Region

/-- A null pointer to `size` blocks. -/
def addHole (hole : Bool) (size : ℕ) (r : Region) : Region :=
  { r with
    holeFound := true
    blocks := if hole then r.blocks else r.blocks + size }

/-- A pointer to a block. -/
def addData (hole : Bool) (r : Region) : Region :=
  { r with
    dataFound := true
    blocks := if hole && !r.holeFound then r.blocks + 1 else r.blocks }

end Region

/-- The loop of `recursive_find_region`, over `n` slots from `i` on. A search for data ends where
there is data; `none` is a read past the end of a page. -/
def findSlots (hole : Bool) (slot : ℕ → Region → Option Region) : (n i : ℕ) → Region →
    Option Region
  | 0, _, r => some r
  | n + 1, i, r =>
    if 512 ≤ i then none
    else
      (slot i r).bind fun r =>
        if !hole && r.dataFound then some r else findSlots hole slot n (i + 1) r

/-- `recursive_find_region` below a pointer, with what its loop does where the pointer is null or
one to a block. -/
def recursiveFindRegion (hole : Bool) : {h : ℕ} → Slot h → (first last : ℕ) → Region →
    Option Region
  | h, .null, _, _, r => some (r.addHole hole (512 ^ h))
  | _, .data _, _, _, r => some (r.addData hole)
  | h + 1, .page _ node, first, last, r =>
    findSlots hole
      (fun i => recursiveFindRegion hole (node i) (firstBelow 512 h first i)
        (lastBelow 512 h last i))
      (last / 512 ^ h + 1 - first / 512 ^ h) (first / 512 ^ h) r

/-- What `pmfs_find_region` makes of a region: what it returns, and the offset. In the last cases
there is a hole, and `blocks` is not 0. -/
def regionOffset (hole : Bool) (iSize offset : ℕ) (r : Region) : ℤ × ℕ :=
  if !hole && !r.dataFound && r.holeFound then (-6, offset)
  else if r.dataFound && !r.holeFound then (0, if hole then iSize else offset)
  else if hole && r.holeFound && decide (r.blocks = 0) then
    (0, if !r.dataFound then iSize else offset)
  else if offset % 4096 ≠ 0 then
    (0, offset + ((r.blocks - 1) * 4096 + (4096 - offset % 4096)))
  else (0, offset + r.blocks * 4096)

/-- `pmfs_find_region`: what it returns, and the offset. -/
def pmfsFindRegion (f : File) (hole : Bool) (offset : ℕ) : Option (ℤ × ℕ) :=
  if f.iSize ≤ offset then some (-6, offset)
  else if f.iBlocks = 0 ∨ f.root.isNull = true then some (if hole then f.iSize else -6, offset)
  else if f.height = 0 then some (regionOffset hole f.iSize offset ⟨0, true, false⟩)
  else
    (recursiveFindRegion hole f.root (offset / 4096) (f.iSize / 4096) ⟨0, false, false⟩).map
      (regionOffset hole f.iSize offset)

/-- The largest offset, `s_maxbytes`. -/
def sMaxbytes : ℕ := 2 ^ 39 - 1

/-- What `pmfs_llseek` makes of what `pmfs_find_region` returns, which goes through an `int`, and of
the offset. -/
def returned (p : ℤ × ℕ) : ℤ :=
  let retval := p.1.bmod (2 ^ 32)
  if retval ≠ 0 then retval
  else if sMaxbytes < p.2 then -22
  else p.2

/-- `pmfs_llseek` with `SEEK_HOLE`, or with `SEEK_DATA`. -/
def pmfsLlseek (f : File) (hole : Bool) (offset : ℕ) : Option ℤ :=
  (pmfsFindRegion f hole offset).map returned

/-! ## What it is to find -/

/-- The offsets from `offset` on, below the size, that are in blocks, or in holes. -/
def wanted (f : File) (hole : Bool) (offset : ℕ) : Set ℕ :=
  {x | offset ≤ x ∧ x < f.iSize ∧ (pmfsFindDataBlock f (x / 4096) = none ↔ hole = true)}

/-- The search ends inside of the pages, with the least of the offsets that it is for; if there are
none, with the size, or with `-ENXIO`. -/
def Seeks (f : File) (hole : Bool) (offset : ℕ) : Prop :=
  ∃ r, pmfsLlseek f hole offset = some r ∧
    ((∃ x, IsLeast (wanted f hole offset) x ∧ r = x) ∨
      wanted f hole offset = ∅ ∧ r = if hole then (f.iSize : ℤ) else -6)

/-- How far into the blocks of the null pointer on the way to a block the block lies. -/
def Slot.skipped : {h : ℕ} → Slot h → (k : ℕ) → ℕ
  | _, .null, k => k
  | _, .data _, _ => 0
  | h + 1, .page _ node, k => (node (k / 512 ^ h)).skipped (k % 512 ^ h)

/-- A search for data is right: in a file of one block from inside of it; from a block that is
there; in a hole that is counted from the block of the offset on and ends before the size; and where
there is no data, if the tree has a place for the block of the size. -/
def SeeksData (f : File) (offset : ℕ) : Prop :=
  f.iBlocks = 0 ∨ f.root.isNull = true ∨ f.height = 0 ∧ offset < 4096 ∨
    0 < f.height ∧ (pmfsFindDataBlock f (offset / 4096) ≠ none ∨
      f.root.skipped (offset / 4096) = 0 ∧
        (∃ k, offset / 4096 ≤ k ∧ k * 4096 < f.iSize ∧ pmfsFindDataBlock f k ≠ none) ∨
      f.iSize / 4096 < 512 ^ f.height ∧
        ∀ k, offset / 4096 ≤ k → k ≤ f.iSize / 4096 → pmfsFindDataBlock f k = none)

/-- A search for a hole is right: in a file without blocks, where the size comes out as the offset
or as 0; in a file of one block that has all of the file; and in a tree that has a place for the
block of the size, if there is data from the block of the offset on. -/
def SeeksHole (f : File) (offset : ℕ) : Prop :=
  if f.iBlocks = 0 ∨ f.root.isNull = true then
    (f.iSize : ℤ).bmod (2 ^ 32) = offset ∨
      (f.iSize : ℤ).bmod (2 ^ 32) = 0 ∧ offset ≤ sMaxbytes
  else if f.height = 0 then f.iSize ≤ 4096
  else f.iSize / 4096 < 512 ^ f.height ∧
    ∃ k, offset / 4096 ≤ k ∧ k ≤ f.iSize / 4096 ∧ pmfsFindDataBlock f k ≠ none

variable {f : File} {h i j k l m n b first last lo mid hi base : ℕ} {hole : Bool}
  {r s t : Region} {A B : ℕ → Prop} {slot : ℕ → Region → Option Region}

/-! ## Slots one after the other -/

theorem mul_add_firstBelow (hi : first / 512 ^ h < i) :
    i * 512 ^ h + firstBelow 512 h first i = i * 512 ^ h := by
  rw [firstBelow_of_ne (by omega), Nat.add_zero]

theorem start_firstBelow : first / 512 ^ h * 512 ^ h + firstBelow 512 h first (first / 512 ^ h) =
    first := by
  rw [firstBelow, if_pos rfl]
  exact Nat.div_add_mod' first _

theorem mul_add_lastBelow (hi : i < last / 512 ^ h) :
    i * 512 ^ h + (lastBelow 512 h last i + 1) = (i + 1) * 512 ^ h := by
  have hpos : 0 < 512 ^ h := Nat.pow_pos (by decide)
  rw [lastBelow_of_ne (by omega), Nat.succ_mul]
  omega

theorem stop_lastBelow (h last : ℕ) :
    last / 512 ^ h * 512 ^ h + (lastBelow 512 h last (last / 512 ^ h) + 1) = last + 1 := by
  rw [lastBelow, if_pos rfl, ← Nat.add_assoc]
  exact congrArg (· + 1) (Nat.div_add_mod' last _)

/-- The loop reads past the end of the page unless it stops before. -/
theorem findSlots_beyond (hn : 0 < n) (hpast : 512 < i + n) : findSlots true slot n i r = none := by
  induction n generalizing i r with
  | zero => omega
  | succ n ih =>
    rw [findSlots]
    by_cases hi : 512 ≤ i
    · rw [if_pos hi]
    · rw [if_neg hi]
      cases slot i r with
      | none => rfl
      | some s =>
        simp only [Option.bind_some, Bool.not_true, Bool.false_and, Bool.false_eq_true, if_false]
        exact ih (by omega) (by omega)

/-! ## Searches for holes -/

/-- A search for holes has passed the blocks from `lo` up to `hi`, of which `A` are there: it counts
those before the first hole. -/
structure Scanned (A : ℕ → Prop) (lo hi : ℕ) (r s : Region) : Prop where
  data : s.dataFound = true ↔ r.dataFound = true ∨ ∃ k, lo ≤ k ∧ k < hi ∧ A k
  holes : s.holeFound = true ↔ r.holeFound = true ∨ ∃ k, lo ≤ k ∧ k < hi ∧ ¬A k
  stays : r.holeFound = true → s.blocks = r.blocks
  counts : r.holeFound = false → ∃ m, s.blocks = r.blocks + m ∧ lo + m ≤ hi ∧
    (∀ k, lo ≤ k → k < lo + m → A k) ∧ (lo + m < hi → ¬A (lo + m))

theorem Scanned.trans (hr : Scanned A lo mid r s) (hs : Scanned A mid hi s t) (hlo : lo ≤ mid)
    (hhi : mid ≤ hi) : Scanned A lo hi r t := by
  refine ⟨?_, ?_, fun hfound => ?_, fun hnone => ?_⟩
  · rw [hs.data, hr.data]
    grind
  · rw [hs.holes, hr.holes]
    grind
  · exact (hs.stays (hr.holes.2 (.inl hfound))).trans (hr.stays hfound)
  · obtain ⟨m, hblocks, hm, hall, hfirst⟩ := hr.counts hnone
    by_cases hfull : lo + m < mid
    · have hfound : s.holeFound = true := hr.holes.2 (.inr ⟨_, by omega, hfull, hfirst hfull⟩)
      exact ⟨m, (hs.stays hfound).trans hblocks, by omega, hall, fun _ => hfirst hfull⟩
    · have hmid : lo + m = mid := by omega
      have hfound : s.holeFound = false := by
        by_contra hfound
        obtain hin | ⟨k, hk, hlt, hno⟩ := hr.holes.1 (by simpa using hfound)
        · simp [hin] at hnone
        · exact hno (hall k hk (by omega))
      obtain ⟨m', hblocks', hm', hall', hfirst'⟩ := hs.counts hfound
      have hsum : lo + (m + m') = mid + m' := by omega
      refine ⟨m + m', by omega, by omega, fun k hk hlt => ?_, fun hlt => ?_⟩
      · by_cases hkm : k < mid
        · exact hall k hk (by omega)
        · exact hall' k (by omega) (by omega)
      · rw [hsum] at hlt ⊢
        exact hfirst' hlt

theorem Scanned.shift (hr : Scanned B lo hi r s)
    (hA : ∀ k, lo ≤ k → k < hi → (A (base + k) ↔ B k)) :
    Scanned A (base + lo) (base + hi) r s := by
  have hex : ∀ {P Q : ℕ → Prop}, (∀ k, lo ≤ k → k < hi → (P (base + k) ↔ Q k)) →
      ((∃ k, base + lo ≤ k ∧ k < base + hi ∧ P k) ↔ ∃ k, lo ≤ k ∧ k < hi ∧ Q k) := by
    intro P Q hPQ
    constructor
    · rintro ⟨k, hk, hlt, hp⟩
      obtain ⟨k, rfl⟩ := Nat.exists_eq_add_of_le (show base ≤ k by omega)
      exact ⟨k, by omega, by omega, (hPQ k (by omega) (by omega)).1 hp⟩
    · rintro ⟨k, hk, hlt, hq⟩
      exact ⟨base + k, by omega, by omega, (hPQ k hk hlt).2 hq⟩
  refine ⟨?_, ?_, hr.stays, fun hnone => ?_⟩
  · rw [hr.data, hex hA]
  · rw [hr.holes, hex fun k hk hlt => not_congr (hA k hk hlt)]
  · obtain ⟨m, hblocks, hm, hall, hfirst⟩ := hr.counts hnone
    refine ⟨m, hblocks, by omega, fun k hk hlt => ?_, fun hlt => ?_⟩
    · obtain ⟨k, rfl⟩ := Nat.exists_eq_add_of_le (show base ≤ k by omega)
      exact (hA k (by omega) (by omega)).2 (hall k (by omega) (by omega))
    · rw [Nat.add_assoc, hA _ (by omega) (by omega)]
      exact hfirst (by omega)

/-- The slots of a page one after the other. -/
theorem findSlots_scanned (hle : first ≤ last) (hpage : last / 512 ^ h < 512)
    (hslot : ∀ i r, first / 512 ^ h ≤ i → i ≤ last / 512 ^ h → ∃ s, slot i r = some s ∧
      Scanned A (i * 512 ^ h + firstBelow 512 h first i)
        (i * 512 ^ h + (lastBelow 512 h last i + 1)) r s)
    (hi : first / 512 ^ h ≤ i) (hn : i + (n + 1) = last / 512 ^ h + 1) :
    ∃ s, findSlots true slot (n + 1) i r = some s ∧
      Scanned A (i * 512 ^ h + firstBelow 512 h first i) (last + 1) r s := by
  induction n generalizing i r with
  | zero =>
    obtain rfl : i = last / 512 ^ h := by omega
    obtain ⟨s, hs, hscanned⟩ := hslot _ r hi le_rfl
    rw [stop_lastBelow] at hscanned
    exact ⟨s, by simp [findSlots, hs, Nat.not_le.2 hpage], hscanned⟩
  | succ n ih =>
    obtain ⟨s, hs, hscanned⟩ := hslot i r hi (by omega)
    obtain ⟨t, ht, hrest⟩ := ih (i := i + 1) (r := s) (by omega) (by omega)
    have hcut := mul_add_lastBelow (show i < last / 512 ^ h by omega)
    have hbelow := firstBelow_le (by decide : 0 < 512) hle i (h := h)
    have hend : (i + 1) * 512 ^ h ≤ last + 1 :=
      (Nat.mul_le_mul_right _ (by omega)).trans ((Nat.div_mul_le_self last _).trans (Nat.le_succ _))
    rw [hcut] at hscanned
    rw [mul_add_firstBelow (by omega)] at hrest
    refine ⟨t, ?_, hscanned.trans hrest (by omega) hend⟩
    rw [findSlots, if_neg (by omega), hs]
    simpa using ht

/-- A search for holes below a pointer. -/
theorem recursiveFindRegion_scanned (slot : Slot h) (r : Region) (hle : first ≤ last)
    (hlast : last < 512 ^ h) : ∃ s, recursiveFindRegion true slot first last r = some s ∧
      Scanned (fun k => slot.find k ≠ none) first (last + 1) r s := by
  induction slot generalizing first last r with
  | @null h =>
    have hnone : ∀ k, (Slot.null : Slot h).find k = none := fun k => by
      rw [Slot.find_eq, Slot.ptr_null]
    refine ⟨r.addHole true (512 ^ h), by cases h <;> rfl, ?_, ?_, fun _ => rfl, fun _ => ?_⟩
    · simp [Region.addHole, hnone]
    · simp only [Region.addHole, hnone, ne_eq, not_true, not_false_iff, and_true, true_iff]
      exact .inr ⟨first, le_rfl, by omega⟩
    · exact ⟨0, rfl, by omega, fun k hk hlt => by omega, fun _ => by simp [hnone]⟩
  | data b =>
    rw [pow_zero] at hlast
    obtain rfl : last = 0 := by omega
    obtain rfl : first = 0 := by omega
    have hsome : ∀ k, (Slot.data b).find k ≠ none := fun k => nofun
    refine ⟨r.addData true, rfl, ?_, ?_, fun hfound => ?_, fun hnone => ?_⟩
    · simp [Region.addData, hsome]
    · simp [Region.addData, hsome]
    · simp [Region.addData, hfound]
    · exact ⟨1, by simp [Region.addData, hnone], le_rfl, fun k _ _ => hsome k, by omega⟩
  | @page h b node ih =>
    have hpos : 0 < 512 ^ h := Nat.pow_pos (by decide)
    have hpage : last / 512 ^ h < 512 := Nat.div_lt_of_lt_mul (by rwa [← pow_succ])
    have hdiv : first / 512 ^ h ≤ last / 512 ^ h := Nat.div_le_div_right hle
    have hslot : ∀ i r, first / 512 ^ h ≤ i → i ≤ last / 512 ^ h → ∃ s,
        recursiveFindRegion true (node i) (firstBelow 512 h first i) (lastBelow 512 h last i) r =
          some s ∧ Scanned (fun k => (Slot.page b node).find k ≠ none)
            (i * 512 ^ h + firstBelow 512 h first i)
            (i * 512 ^ h + (lastBelow 512 h last i + 1)) r s := by
      intro i r _ _
      have hlt := lastBelow_lt (by decide : 0 < 512) h last i
      obtain ⟨s, hs, hscanned⟩ := ih i r (firstBelow_le (by decide) hle i) hlt
      refine ⟨s, hs, hscanned.shift fun k _ hk => ?_⟩
      obtain ⟨hquot, hrem⟩ := Slot.mul_add_div_mod (show k < 512 ^ h by omega) i
      rw [Slot.find, hquot, hrem]
    obtain ⟨n, hn⟩ := Nat.exists_eq_add_of_le hdiv
    have hcount : last / 512 ^ h + 1 - first / 512 ^ h = n + 1 := by omega
    obtain ⟨s, hs, hscanned⟩ := findSlots_scanned (r := r) hle hpage hslot le_rfl
      (show first / 512 ^ h + (n + 1) = _ by omega)
    rw [start_firstBelow] at hscanned
    rw [recursiveFindRegion, hcount]
    exact ⟨s, hs, hscanned⟩

/-! ## Searches for data -/

/-- A search for data has passed the blocks from `lo` up to `hi`, of which `A` are there. It ends at
the first of them, and counts the blocks before and `more`; if there are none, all of them, if they
end a page (`full`). -/
structure Sought (A : ℕ → Prop) (lo hi more : ℕ) (full : Prop) (r s : Region) : Prop where
  found : ∀ d, lo ≤ d → d < hi → A d → (∀ k, lo ≤ k → k < d → ¬A k) → s.dataFound = true ∧
    s.blocks + lo = r.blocks + d + more ∧ (s.holeFound = true ↔ r.holeFound = true ∨ lo < d)
  missed : (∀ k, lo ≤ k → k < hi → ¬A k) → s.dataFound = false ∧ s.holeFound = true ∧
    (full → s.blocks + lo = r.blocks + hi + more)

variable {more : ℕ} {full full' : Prop}

/-- The first block that is there, if there is one. -/
theorem exists_first (A : ℕ → Prop) (lo hi : ℕ) : (∀ k, lo ≤ k → k < hi → ¬A k) ∨
    ∃ d, lo ≤ d ∧ d < hi ∧ A d ∧ ∀ k, lo ≤ k → k < d → ¬A k := by
  classical
  by_cases h : ∃ k, lo ≤ k ∧ k < hi ∧ A k
  · obtain ⟨hlo, hhi, hA⟩ := Nat.find_spec h
    refine .inr ⟨Nat.find h, hlo, hhi, hA, fun k hk hlt hAk => ?_⟩
    exact Nat.find_min h hlt ⟨hk, by omega, hAk⟩
  · exact .inl fun k hk hlt hAk => h ⟨k, hk, hlt, hAk⟩

theorem Sought.stop (hr : Sought A lo mid more full r s) (hhi : mid ≤ hi)
    (hfound : s.dataFound = true) : Sought A lo hi more full' r s := by
  obtain hnone | ⟨d, hd, hlt, hA, hmin⟩ := exists_first A lo mid
  · simp [(hr.missed hnone).1] at hfound
  · refine ⟨fun d' hd' _ hA' hmin' => ?_, fun hnone => absurd hA (hnone d hd (by omega))⟩
    have hge : d ≤ d' := by
      by_contra hlt'
      exact hmin d' hd' (by omega) hA'
    have hle : d' ≤ d := by
      by_contra hlt'
      exact hmin' d hd (by omega) hA
    obtain rfl : d = d' := le_antisymm hge hle
    exact hr.found d hd hlt hA hmin

theorem Sought.trans (hr : Sought A lo mid more True r s) (hs : Sought A mid hi 0 full s t)
    (hlo : lo < mid) (hmissed : s.dataFound = false) : Sought A lo hi more full r t := by
  have hnone : ∀ k, lo ≤ k → k < mid → ¬A k := by
    obtain hnone | ⟨d, hd, hlt, hA, hmin⟩ := exists_first A lo mid
    · exact hnone
    · simp [(hr.found d hd hlt hA hmin).1] at hmissed
  obtain ⟨-, hholes, hblocks⟩ := hr.missed hnone
  have hall := hblocks trivial
  refine ⟨fun d hd hlt hA hmin => ?_, fun hnone' => ?_⟩
  · have hmid : mid ≤ d := by
      by_contra hlt'
      exact hnone d hd (by omega) hA
    obtain ⟨hdata, hcount, hfound⟩ := hs.found d hmid hlt hA fun k hk => hmin k (by omega)
    refine ⟨hdata, by omega, ?_⟩
    rw [hfound]
    exact iff_of_true (.inl hholes) (.inr (by omega))
  · obtain ⟨hdata, hfound, hcount⟩ := hs.missed fun k hk => hnone' k (by omega)
    exact ⟨hdata, hfound, fun h => by have := hcount h; omega⟩

theorem Sought.shift (hr : Sought B lo hi more full r s)
    (hA : ∀ k, lo ≤ k → k < hi → (A (base + k) ↔ B k)) :
    Sought A (base + lo) (base + hi) more full r s := by
  refine ⟨fun d hd hlt hAd hmin => ?_, fun hnone => ?_⟩
  · obtain ⟨d, rfl⟩ := Nat.exists_eq_add_of_le (show base ≤ d by omega)
    obtain ⟨hdata, hcount, hfound⟩ := hr.found d (by omega) (by omega)
      ((hA d (by omega) (by omega)).1 hAd) fun k hk hkd hB =>
        hmin (base + k) (by omega) (by omega) ((hA k hk (by omega)).2 hB)
    refine ⟨hdata, by omega, ?_⟩
    rw [hfound, Nat.add_lt_add_iff_left]
  · obtain ⟨hdata, hfound, hcount⟩ := hr.missed fun k hk hlt hB =>
      hnone (base + k) (by omega) (by omega) ((hA k hk hlt).2 hB)
    exact ⟨hdata, hfound, fun h => by have := hcount h; omega⟩

/-- The slots of a page one after the other. `surplus` is what they count too much. -/
theorem findSlots_sought {surplus : ℕ → ℕ} (hle : first ≤ last) (hpage : last / 512 ^ h < 512)
    (hfull : full → lastBelow 512 h last (last / 512 ^ h) + 1 = 512 ^ h)
    (hsurplus : ∀ i, first / 512 ^ h < i → surplus i = 0)
    (hslot : ∀ i r, r.dataFound = false → first / 512 ^ h ≤ i → i ≤ last / 512 ^ h →
      ∃ s, slot i r = some s ∧ Sought A (i * 512 ^ h + firstBelow 512 h first i)
        (i * 512 ^ h + (lastBelow 512 h last i + 1)) (surplus i)
        (lastBelow 512 h last i + 1 = 512 ^ h) r s)
    (hr : r.dataFound = false) (hi : first / 512 ^ h ≤ i)
    (hn : i + (n + 1) = last / 512 ^ h + 1) :
    ∃ s, findSlots false slot (n + 1) i r = some s ∧
      Sought A (i * 512 ^ h + firstBelow 512 h first i) (last + 1) (surplus i) full r s := by
  induction n generalizing i r with
  | zero =>
    obtain rfl : i = last / 512 ^ h := by omega
    obtain ⟨s, hs, hsought⟩ := hslot _ r hr hi le_rfl
    rw [stop_lastBelow] at hsought
    refine ⟨s, by simp [findSlots, hs, Nat.not_le.2 hpage], hsought.found, fun hnone => ?_⟩
    obtain ⟨hdata, hfound, hcount⟩ := hsought.missed hnone
    exact ⟨hdata, hfound, fun h => hcount (hfull h)⟩
  | succ n ih =>
    obtain ⟨s, hs, hsought⟩ := hslot i r hr hi (by omega)
    have hpos : 0 < 512 ^ h := Nat.pow_pos (by decide)
    have hcut := mul_add_lastBelow (show i < last / 512 ^ h by omega)
    have hbelow := firstBelow_le (by decide : 0 < 512) hle i (h := h)
    have hend : (i + 1) * 512 ^ h ≤ last + 1 :=
      (Nat.mul_le_mul_right _ (by omega)).trans ((Nat.div_mul_le_self last _).trans (Nat.le_succ _))
    have hwhole : lastBelow 512 h last i + 1 = 512 ^ h := by
      rw [lastBelow_of_ne (by omega)]
      omega
    rw [hcut] at hsought
    rw [findSlots, if_neg (by omega), hs]
    by_cases hfound : s.dataFound = true
    · exact ⟨s, by simp [hfound], hsought.stop hend hfound⟩
    · rw [Bool.not_eq_true] at hfound
      obtain ⟨t, ht, hrest⟩ := ih (i := i + 1) hfound (by omega) (by omega)
      rw [mul_add_firstBelow (by omega), hsurplus _ (by omega)] at hrest
      have hexact : Sought A (i * 512 ^ h + firstBelow 512 h first i) ((i + 1) * 512 ^ h) (surplus i)
          True r s := by
        refine ⟨hsought.found, fun hnone => ?_⟩
        obtain ⟨hdata, hholes, hcount⟩ := hsought.missed hnone
        exact ⟨hdata, hholes, fun _ => hcount hwhole⟩
      exact ⟨t, by simpa [hfound] using ht, hexact.trans hrest (by omega) hfound⟩

theorem Slot.skipped_zero (slot : Slot h) : slot.skipped 0 = 0 := by
  induction slot with
  | @null h => cases h <;> rfl
  | data b => rfl
  | page b node ih => rw [Slot.skipped, Nat.zero_div, Nat.zero_mod, ih]

/-- A search for data below a pointer. -/
theorem recursiveFindRegion_sought (slot : Slot h) (hr : r.dataFound = false)
    (hle : first ≤ last) (hlast : last < 512 ^ h) :
    ∃ s, recursiveFindRegion false slot first last r = some s ∧
      Sought (fun k => slot.find k ≠ none) first (last + 1) (slot.skipped first)
        (last + 1 = 512 ^ h) r s := by
  induction slot generalizing first last r with
  | @null h =>
    have hnone : ∀ k, (Slot.null : Slot h).find k = none := fun k => by
      rw [Slot.find_eq, Slot.ptr_null]
    have hskip : (Slot.null : Slot h).skipped first = first := by cases h <;> rfl
    refine ⟨r.addHole false (512 ^ h), by cases h <;> rfl, fun d _ _ hd => absurd (hnone d) hd,
      fun _ => ⟨hr, rfl, fun hfull => ?_⟩⟩
    simp only [Region.addHole, Bool.false_eq_true, if_false]
    omega
  | data b =>
    rw [pow_zero] at hlast
    obtain rfl : last = 0 := by omega
    obtain rfl : first = 0 := by omega
    refine ⟨r.addData false, rfl, fun d _ hd _ _ => ?_, fun hnone => absurd nofun
      (hnone 0 le_rfl (by omega))⟩
    obtain rfl : d = 0 := by omega
    exact ⟨rfl, rfl, by simp [Region.addData]⟩
  | @page h b node ih =>
    have hpos : 0 < 512 ^ h := Nat.pow_pos (by decide)
    have hpage : last / 512 ^ h < 512 := Nat.div_lt_of_lt_mul (by rwa [← pow_succ])
    have hdiv : first / 512 ^ h ≤ last / 512 ^ h := Nat.div_le_div_right hle
    have hslot : ∀ i r, r.dataFound = false → first / 512 ^ h ≤ i → i ≤ last / 512 ^ h → ∃ s,
        recursiveFindRegion false (node i) (firstBelow 512 h first i) (lastBelow 512 h last i) r =
          some s ∧ Sought (fun k => (Slot.page b node).find k ≠ none)
            (i * 512 ^ h + firstBelow 512 h first i)
            (i * 512 ^ h + (lastBelow 512 h last i + 1))
            ((node i).skipped (firstBelow 512 h first i))
            (lastBelow 512 h last i + 1 = 512 ^ h) r s := by
      intro i r hr _ _
      have hlt := lastBelow_lt (by decide : 0 < 512) h last i
      obtain ⟨s, hs, hsought⟩ := ih i hr (firstBelow_le (by decide) hle i) hlt
      refine ⟨s, hs, hsought.shift fun k _ hk => ?_⟩
      obtain ⟨hquot, hrem⟩ := Slot.mul_add_div_mod (show k < 512 ^ h by omega) i
      rw [Slot.find, hquot, hrem]
    have hfull : last + 1 = 512 ^ (h + 1) →
        lastBelow 512 h last (last / 512 ^ h) + 1 = 512 ^ h := by
      intro hfull
      have hstop := stop_lastBelow h last
      have hlt := lastBelow_lt (by decide : 0 < 512) h last (last / 512 ^ h)
      have hmul : last / 512 ^ h * 512 ^ h ≤ 511 * 512 ^ h := Nat.mul_le_mul_right _ (by omega)
      rw [pow_succ'] at hfull
      omega
    obtain ⟨n, hn⟩ := Nat.exists_eq_add_of_le hdiv
    have hcount : last / 512 ^ h + 1 - first / 512 ^ h = n + 1 := by omega
    obtain ⟨s, hs, hsought⟩ := findSlots_sought hle hpage hfull
      (fun i hi => by rw [firstBelow_of_ne (by omega), Slot.skipped_zero]) hslot hr le_rfl
      (show first / 512 ^ h + (n + 1) = _ by omega)
    rw [start_firstBelow] at hsought
    rw [recursiveFindRegion, hcount]
    have hskip : (Slot.page b node).skipped first = (node (first / 512 ^ h)).skipped
        (firstBelow 512 h first (first / 512 ^ h)) := by
      rw [Slot.skipped, firstBelow, if_pos rfl]
    rw [hskip]
    exact ⟨s, hs, hsought⟩

/-! ## Beyond the tree -/

theorem findSlots_congr {slot' : ℕ → Region → Option Region}
    (hsame : ∀ j, i ≤ j → j < 512 → slot j = slot' j) :
    findSlots hole slot n i r = findSlots hole slot' n i r := by
  induction n generalizing i r with
  | zero => rfl
  | succ n ih =>
    rw [findSlots, findSlots]
    by_cases hi : 512 ≤ i
    · rw [if_pos hi, if_pos hi]
    · rw [if_neg hi, if_neg hi, hsame i le_rfl (by omega)]
      exact congrArg _ (funext fun s => by rw [ih fun j hj => hsame j (by omega)])

/-- A search for data goes on past the end of a page without data. -/
theorem findSlots_add (hm : 0 < m) (hi : i + (n + 1) = 512) :
    findSlots false slot (n + 1 + m) i r =
      (findSlots false slot (n + 1) i r).bind fun s => if s.dataFound then some s else none := by
  induction n generalizing i r with
  | zero =>
    obtain ⟨m, rfl⟩ : ∃ m', m = m' + 1 := ⟨m - 1, by omega⟩
    have hlt : ¬512 ≤ i := by omega
    have hend : 512 ≤ i + 1 := by omega
    rw [Nat.add_comm]
    simp only [findSlots, if_neg hlt, if_pos hend]
    cases slot i r with
    | none => rfl
    | some s => cases hs : s.dataFound <;> simp [hs]
  | succ n ih =>
    have hlt : ¬512 ≤ i := by omega
    have hnext := fun s => ih (i := i + 1) (r := s) (by omega)
    have hsucc : n + 1 + 1 + m = n + 1 + m + 1 := by omega
    rw [hsucc, findSlots, findSlots, if_neg hlt, if_neg hlt]
    cases slot i r with
    | none => rfl
    | some s => cases hs : s.dataFound <;> simp [hs, hnext]

theorem recursiveFindRegion_hole_beyond {node : ℕ → Slot h} (hle : first ≤ last)
    (hlast : 512 ^ (h + 1) ≤ last) :
    recursiveFindRegion true (.page b node) first last r = none := by
  have hpos : 0 < 512 ^ h := Nat.pow_pos (by decide)
  have hdiv : first / 512 ^ h ≤ last / 512 ^ h := Nat.div_le_div_right hle
  have hpage : 512 ≤ last / 512 ^ h := (Nat.le_div_iff_mul_le hpos).2 (by rwa [← pow_succ'])
  exact findSlots_beyond (by omega) (by omega)

/-- A search for data that starts in the tree and ends behind it finds what is in the tree. -/
theorem recursiveFindRegion_data_beyond {node : ℕ → Slot h} (hfirst : first < 512 ^ (h + 1))
    (hlast : 512 ^ (h + 1) ≤ last) :
    recursiveFindRegion false (.page b node) first last r =
      (recursiveFindRegion false (.page b node) first (512 ^ (h + 1) - 1) r).bind fun s =>
        if s.dataFound then some s else none := by
  have hpos : 0 < 512 ^ h := Nat.pow_pos (by decide)
  have hpage : 512 ≤ last / 512 ^ h := (Nat.le_div_iff_mul_le hpos).2 (by rwa [← pow_succ'])
  have hstart : first / 512 ^ h < 512 := Nat.div_lt_of_lt_mul (by rwa [← pow_succ])
  have hend : (512 ^ (h + 1) - 1) / 512 ^ h = 511 := by
    rw [pow_succ']
    refine Nat.div_eq_of_lt_le (by omega) (by omega)
  have hbelow : ∀ j < 512, lastBelow 512 h last j = lastBelow 512 h (512 ^ (h + 1) - 1) j := by
    intro j hj
    rw [lastBelow_of_ne (by omega), lastBelow, hend]
    split
    · have hstop := stop_lastBelow h (512 ^ (h + 1) - 1)
      rw [lastBelow, if_pos rfl, hend, pow_succ'] at hstop
      rw [pow_succ']
      omega
    · rfl
  obtain ⟨n, hn⟩ := Nat.exists_eq_add_of_le (show first / 512 ^ h + 1 ≤ 512 by omega)
  obtain ⟨m, hm⟩ := Nat.exists_eq_add_of_le (show 512 ≤ last / 512 ^ h by omega)
  have hcount : last / 512 ^ h + 1 - first / 512 ^ h = n + 1 + (m + 1) := by omega
  have hcount' : 511 + 1 - first / 512 ^ h = n + 1 := by omega
  rw [recursiveFindRegion, recursiveFindRegion, hend, hcount, hcount',
    findSlots_add (Nat.succ_pos m) (by omega)]
  congr 1
  exact findSlots_congr fun j _ hj => by rw [hbelow j hj]

theorem recursiveFindRegion_outside {node : ℕ → Slot h} (hle : first ≤ last)
    (hfirst : 512 ^ (h + 1) ≤ first) :
    recursiveFindRegion hole (.page b node) first last r = none := by
  have hpos : 0 < 512 ^ h := Nat.pow_pos (by decide)
  have hdiv : first / 512 ^ h ≤ last / 512 ^ h := Nat.div_le_div_right hle
  have hpage : 512 ≤ first / 512 ^ h := (Nat.le_div_iff_mul_le hpos).2 (by rwa [← pow_succ'])
  obtain ⟨n, hn⟩ := Nat.exists_eq_add_of_le hdiv
  have hcount : last / 512 ^ h + 1 - first / 512 ^ h = n + 1 := by omega
  rw [recursiveFindRegion, hcount, findSlots, if_pos hpage]

/-! ## What comes out -/

variable {offset d x : ℕ} {ret : ℤ}

theorem isLeast_wanted (hlt : offset < f.iSize) (hd : offset / 4096 ≤ d) (hin : d * 4096 < f.iSize)
    (hwant : pmfsFindDataBlock f d = none ↔ hole = true)
    (hmin : ∀ k, offset / 4096 ≤ k → k < d → ¬(pmfsFindDataBlock f k = none ↔ hole = true)) :
    IsLeast (wanted f hole offset) (max offset (d * 4096)) := by
  have hdiv : max offset (d * 4096) / 4096 = d := by omega
  refine ⟨⟨le_max_left .., max_lt hlt hin, by rwa [hdiv]⟩, fun x ⟨hx, _, hxw⟩ => max_le hx ?_⟩
  by_contra hxd
  exact hmin (x / 4096) (by omega) (by omega) hxw

theorem wanted_eq_empty (hmin : ∀ k, offset / 4096 ≤ k → k * 4096 < f.iSize →
    ¬(pmfsFindDataBlock f k = none ↔ hole = true)) : wanted f hole offset = ∅ := by
  refine Set.eq_empty_of_forall_notMem fun x ⟨hx, hlt, hxw⟩ => ?_
  exact hmin (x / 4096) (by omega) (by omega) hxw

theorem seeks_iff_of_isLeast (hrun : pmfsLlseek f hole offset = some ret)
    (hx : IsLeast (wanted f hole offset) x) : Seeks f hole offset ↔ ret = x := by
  constructor
  · rintro ⟨ret', hret, ⟨x', hx', rfl⟩ | ⟨hempty, -⟩⟩
    · rw [hrun] at hret
      rw [Option.some.inj hret, hx.unique hx']
    · rw [hempty] at hx
      exact absurd hx.1 (Set.notMem_empty x)
  · rintro rfl
    exact ⟨_, hrun, .inl ⟨x, hx, rfl⟩⟩

theorem seeks_iff_of_empty (hrun : pmfsLlseek f hole offset = some ret)
    (hempty : wanted f hole offset = ∅) :
    Seeks f hole offset ↔ ret = if hole then (f.iSize : ℤ) else -6 := by
  constructor
  · rintro ⟨ret', hret, ⟨x', hx', -⟩ | ⟨-, hret'⟩⟩
    · rw [hempty] at hx'
      exact absurd hx'.1 (Set.notMem_empty x')
    · rw [hrun] at hret
      rw [Option.some.inj hret, hret']
  · exact fun hret => ⟨_, hrun, .inr ⟨hempty, hret⟩⟩

theorem not_seeks (hrun : pmfsLlseek f hole offset = none) : ¬Seeks f hole offset := by
  rintro ⟨ret, hret, -⟩
  rw [hrun] at hret
  cases hret

theorem returned_of_le (hx : x ≤ sMaxbytes) : returned (0, x) = x := by
  simp [returned, Nat.not_lt.2 hx]

/-- An offset that is returned is the one that was found. -/
theorem returned_zero_eq (h : returned (0, x) = (d : ℤ)) : x = d := by
  simp only [returned, Int.zero_bmod, ne_eq, not_true, if_false] at h
  split at h <;> omega

theorem returned_zero_ne : returned (0, x) ≠ -6 := by
  simp only [returned, Int.zero_bmod, ne_eq, not_true, if_false]
  split <;> omega

theorem regionOffset_counts (hdata : s.dataFound = true) (hholes : s.holeFound = true)
    (hblocks : 0 < s.blocks) {iSize : ℕ} :
    regionOffset hole iSize offset s = (0, (offset / 4096 + s.blocks) * 4096) := by
  have hne : s.blocks ≠ 0 := by omega
  simp only [regionOffset, hdata, hholes, hne]
  by_cases hmod : offset % 4096 = 0
  · simp [hmod]
    omega
  · simp [hmod]
    omega

/-! ## Files without pages -/

theorem find_eq_none_of_iBlocks (hcount : f.iBlocks = numData f.root.entries)
    (hnone : f.iBlocks = 0 ∨ f.root.isNull = true) (k : ℕ) : pmfsFindDataBlock f k = none := by
  rw [pmfsFindDataBlock_eq]
  rcases hnone with hzero | hnull
  · by_contra hptr
    have hmem := mem_mapped.2 hptr
    rw [Finset.card_eq_zero.1 (card_mapped f |>.trans (hcount.symm.trans hzero))] at hmem
    simp at hmem
  · rw [ptr, treePtr, Slot.isNull_iff.1 hnull, Slot.ptr_null, ite_self]

theorem seeks_iff_of_empty_file (hlt : offset < f.iSize)
    (hcount : f.iBlocks = numData f.root.entries)
    (hnone : f.iBlocks = 0 ∨ f.root.isNull = true) :
    Seeks f false offset ∧ (Seeks f true offset ↔ SeeksHole f offset) := by
  have hfind := find_eq_none_of_iBlocks hcount hnone
  have hregion : ∀ hole, pmfsFindRegion f hole offset =
      some (if hole then (f.iSize : ℤ) else -6, offset) := by
    intro hole
    rw [pmfsFindRegion, if_neg (by omega), if_pos hnone]
  constructor
  · have hrun : pmfsLlseek f false offset = some (-6) := by
      rw [pmfsLlseek, hregion]
      rfl
    exact (seeks_iff_of_empty hrun (wanted_eq_empty fun k _ _ => by simp [hfind])).2 rfl
  · have hrun : pmfsLlseek f true offset = some (returned ((f.iSize : ℤ), offset)) := by
      rw [pmfsLlseek, hregion]
      rfl
    have hleast : IsLeast (wanted f true offset) (max offset (offset / 4096 * 4096)) :=
      isLeast_wanted hlt le_rfl (by omega) (by simp [hfind]) fun k hk hkd => by omega
    rw [max_eq_left (by omega)] at hleast
    rw [seeks_iff_of_isLeast hrun hleast, SeeksHole, if_pos hnone, returned]
    dsimp only
    generalize (f.iSize : ℤ).bmod (2 ^ 32) = retval
    by_cases hzero : retval = 0
    · by_cases hmax : offset ≤ sMaxbytes
      · simp [hzero, hmax, Nat.not_lt.2 hmax]
      · have hne : (0 : ℤ) ≠ offset := by omega
        simp [hzero, hmax, Nat.not_le.1 hmax, hne]
    · simp [hzero]

/-- A file of one block. -/
theorem seeks_iff_of_data (hlt : offset < f.iSize) (hiBlocks : f.iBlocks ≠ 0)
    (hroot : f.root.isNull = false) (hheight : f.height = 0) :
    (Seeks f false offset ↔ SeeksData f offset) ∧ (Seeks f true offset ↔ SeeksHole f offset) := by
  have hnot : ¬(f.iBlocks = 0 ∨ f.root.isNull = true) := by simp [hiBlocks, hroot]
  have hfind : ∀ k, pmfsFindDataBlock f k = none ↔ k ≠ 0 := by
    obtain ⟨height, root, iSize, iBlocks, eofblocks, iMode⟩ := f
    dsimp only at hheight hroot
    subst hheight
    cases root with
    | null => simp [Slot.isNull] at hroot
    | data b =>
      intro k
      rw [pmfsFindDataBlock]
      by_cases hk : k = 0 <;> simp [hk, Slot.find]
  have hregion : ∀ hole, pmfsFindRegion f hole offset =
      some (0, if hole then f.iSize else offset) := by
    intro hole
    rw [pmfsFindRegion, if_neg (by omega), if_neg hnot, if_pos hheight]
    cases hole <;> rfl
  have hdata : pmfsLlseek f false offset = some (returned (0, offset)) := by
    rw [pmfsLlseek, hregion]
    rfl
  have hhole : pmfsLlseek f true offset = some (returned (0, f.iSize)) := by
    rw [pmfsLlseek, hregion]
    rfl
  constructor
  · have hiff : SeeksData f offset ↔ offset < 4096 := by
      simp [SeeksData, hiBlocks, hroot, hheight]
    rw [hiff]
    by_cases hin : offset < 4096
    · have hleast : IsLeast (wanted f false offset) (max offset (offset / 4096 * 4096)) :=
        isLeast_wanted hlt le_rfl (by omega) (by simp [hfind, hin]) fun k hk hkd => by omega
      rw [max_eq_left (by omega)] at hleast
      rw [seeks_iff_of_isLeast hdata hleast]
      exact iff_of_true (returned_of_le (by rw [sMaxbytes]; omega)) hin
    · rw [seeks_iff_of_empty hdata (wanted_eq_empty fun k hk _ => by
        simp [hfind]; omega)]
      exact iff_of_false returned_zero_ne hin
  · have hiff : SeeksHole f offset ↔ f.iSize ≤ 4096 := by
      simp [SeeksHole, hiBlocks, hroot, hheight]
    rw [hiff]
    by_cases hin : f.iSize ≤ 4096
    · rw [seeks_iff_of_empty hhole (wanted_eq_empty fun k _ hk => by
        simp [hfind]; omega)]
      exact iff_of_true (returned_of_le (by rw [sMaxbytes]; omega)) hin
    · have hleast : IsLeast (wanted f true offset) (max offset (max 1 (offset / 4096) * 4096)) :=
        isLeast_wanted hlt (le_max_right ..) (by omega) (by simp [hfind]) fun k hk hkd => by
          simp [hfind]
          omega
      rw [seeks_iff_of_isLeast hhole hleast]
      refine iff_of_false (fun h => ?_) hin
      have heq := returned_zero_eq h
      omega

/-! ## Files with pages -/

/-- A file with data, whose root is a page. -/
structure Paged (f : File) (h b : ℕ) (node : ℕ → Slot h) (offset : ℕ) : Prop where
  height : f.height = h + 1
  root : ⟨f.height, f.root⟩ = (⟨h + 1, .page b node⟩ : (h : ℕ) × Slot h)
  low : h ≤ 2
  iBlocks : f.iBlocks ≠ 0
  lt : offset < f.iSize

variable {node : ℕ → Slot h}

theorem Paged.isNull (hp : Paged f h b node offset) : f.root.isNull = false := by
  obtain ⟨height, root, iSize, iBlocks, eofblocks, iMode⟩ := f
  obtain ⟨hheight, hroot, -, -, -⟩ := hp
  dsimp only at hheight hroot
  subst hheight
  obtain rfl := eq_of_heq (Sigma.mk.inj hroot).2
  rfl

theorem Paged.find (hp : Paged f h b node offset) : pmfsFindDataBlock f k =
    if 512 ^ (h + 1) ≤ k then none else (Slot.page b node).find k := by
  obtain ⟨height, root, iSize, iBlocks, eofblocks, iMode⟩ := f
  obtain ⟨hheight, hroot, -, -, -⟩ := hp
  dsimp only at hheight hroot
  subst hheight
  obtain rfl := eq_of_heq (Sigma.mk.inj hroot).2
  rfl

theorem Paged.skipped (hp : Paged f h b node offset) :
    f.root.skipped k = (Slot.page b node).skipped k := by
  obtain ⟨height, root, iSize, iBlocks, eofblocks, iMode⟩ := f
  obtain ⟨hheight, hroot, -, -, -⟩ := hp
  dsimp only at hheight hroot
  subst hheight
  obtain rfl := eq_of_heq (Sigma.mk.inj hroot).2
  rfl

theorem Paged.pmfsLlseek (hp : Paged f h b node offset) : pmfsLlseek f hole offset =
    (recursiveFindRegion hole (.page b node) (offset / 4096) (f.iSize / 4096)
      ⟨0, false, false⟩).map fun s => returned (regionOffset hole f.iSize offset s) := by
  have hnot : ¬(f.iBlocks = 0 ∨ f.root.isNull = true) := by simp [hp.iBlocks, hp.isNull]
  have hlt := hp.lt
  have hheight := hp.height
  rw [File.pmfsLlseek, pmfsFindRegion, if_neg (by omega), if_neg hnot, if_neg (by omega),
    Option.map_map]
  obtain ⟨height, root, iSize, iBlocks, eofblocks, iMode⟩ := f
  obtain ⟨-, hroot, -, -, -⟩ := hp
  dsimp only at hheight hroot
  subst hheight
  obtain rfl := eq_of_heq (Sigma.mk.inj hroot).2
  rfl

/-- Offsets in blocks that the tree has a place for are small. -/
theorem Paged.le_sMaxbytes (hp : Paged f h b node offset) (hd : d < 512 ^ (h + 1))
    (hx : x < (d + 1) * 4096) : x ≤ sMaxbytes := by
  have hpow : 512 ^ (h + 1) ≤ 512 ^ 3 := Nat.pow_le_pow_right (by decide) (by have := hp.low; omega)
  rw [sMaxbytes]
  omega

/-- What a search for a hole has found: `m` blocks before the first hole, up to the block of the
size. -/
structure HoleSearch (f : File) (offset m : ℕ) (s : Region) : Prop where
  run : pmfsLlseek f true offset = some (returned (regionOffset true f.iSize offset s))
  blocks : s.blocks = m
  data : s.dataFound = true ↔
    ∃ k, offset / 4096 ≤ k ∧ k ≤ f.iSize / 4096 ∧ pmfsFindDataBlock f k ≠ none
  holes : s.holeFound = true ↔
    ∃ k, offset / 4096 ≤ k ∧ k ≤ f.iSize / 4096 ∧ pmfsFindDataBlock f k = none
  before : ∀ k, offset / 4096 ≤ k → k < offset / 4096 + m → pmfsFindDataBlock f k ≠ none
  first : offset / 4096 + m ≤ f.iSize / 4096 → pmfsFindDataBlock f (offset / 4096 + m) = none
  lt : offset < f.iSize
  size : f.iSize ≤ sMaxbytes

theorem Paged.holeSearch (hp : Paged f h b node offset)
    (hlast : f.iSize / 4096 < 512 ^ (h + 1)) : ∃ m s, HoleSearch f offset m s := by
  have hle : offset / 4096 ≤ f.iSize / 4096 := Nat.div_le_div_right hp.lt.le
  have hfind : ∀ k ≤ f.iSize / 4096, pmfsFindDataBlock f k = (Slot.page b node).find k :=
    fun k hk => by rw [hp.find, if_neg (by omega)]
  obtain ⟨s, hs, hscanned⟩ :=
    recursiveFindRegion_scanned (.page b node) ⟨0, false, false⟩ hle hlast
  obtain ⟨m, hblocks, hm, hall, hfirst⟩ := hscanned.counts rfl
  have hdata := hscanned.data
  have hholes := hscanned.holes
  simp only [Bool.false_eq_true, false_or, Nat.lt_succ_iff] at hdata hholes
  refine ⟨m, s, by rw [hp.pmfsLlseek, hs]; rfl, hblocks.trans (Nat.zero_add m), ?_, ?_,
    fun k hk hkm => ?_, fun hkm => ?_, hp.lt, hp.le_sMaxbytes hlast (by omega)⟩
  · rw [hdata]
    refine exists_congr fun k => and_congr_right fun _ => and_congr_right fun hk => ?_
    rw [hfind k hk]
  · rw [hholes]
    refine exists_congr fun k => and_congr_right fun _ => and_congr_right fun hk => ?_
    rw [hfind k hk, not_not]
  · rw [hfind k (by omega)]
    exact hall k hk hkm
  · rw [hfind _ hkm]
    exact not_not.1 (hfirst (by omega))

/-- From the block of the offset on there is a hole, and there is data. -/
theorem HoleSearch.seeks_of_both (hr : HoleSearch f offset m s) (hdata : s.dataFound = true)
    (hhole : s.holeFound = true) : Seeks f true offset := by
  have hlt := hr.lt
  have hsize := hr.size
  have hrun := hr.run
  obtain ⟨k, hk, hkl, hno⟩ := hr.holes.1 hhole
  have hless : offset / 4096 + m ≤ f.iSize / 4096 := by
    by_contra hge
    exact hr.before k hk (by omega) hno
  by_cases hzero : m = 0
  · subst hzero
    have hleast : IsLeast (wanted f true offset) (max offset (offset / 4096 * 4096)) :=
      isLeast_wanted hlt le_rfl (by omega) (by simpa using hr.first hless) fun j hj hjd => by omega
    rw [max_eq_left (by omega)] at hleast
    have hregion : regionOffset true f.iSize offset s = (0, offset) := by
      simp [regionOffset, hdata, hhole, hr.blocks]
    rw [hregion] at hrun
    exact (seeks_iff_of_isLeast hrun hleast).2 (returned_of_le (by omega))
  · have hblocks := hr.blocks
    rw [regionOffset_counts hdata hhole (by omega), hblocks] at hrun
    have hbefore : ∀ j, offset / 4096 ≤ j → j < offset / 4096 + m →
        ¬(pmfsFindDataBlock f j = none ↔ true = true) := fun j hj hjm => by
      simpa using hr.before j hj hjm
    by_cases hin : (offset / 4096 + m) * 4096 < f.iSize
    · have hleast := isLeast_wanted hlt (by omega) hin (by simpa using hr.first hless) hbefore
      rw [max_eq_right (by omega)] at hleast
      exact (seeks_iff_of_isLeast hrun hleast).2 (returned_of_le (by omega))
    · -- the hole starts with the end of the file
      have hempty := wanted_eq_empty fun j hj hjs => hbefore j hj (by omega)
      refine (seeks_iff_of_empty hrun hempty).2 ?_
      rw [returned_of_le (by omega)]
      simp only [if_true]
      omega

/-- There is no hole. -/
theorem HoleSearch.seeks_of_data (hr : HoleSearch f offset m s) (hdata : s.dataFound = true)
    (hhole : ¬s.holeFound = true) : Seeks f true offset := by
  have hrun := hr.run
  have hempty : wanted f true offset = ∅ := by
    refine wanted_eq_empty fun k hk hks hno => hhole (hr.holes.2 ⟨k, hk, by omega, ?_⟩)
    simpa using hno
  have hregion : regionOffset true f.iSize offset s = (0, f.iSize) := by
    simp [regionOffset, hdata, hhole]
  rw [hregion] at hrun
  exact (seeks_iff_of_empty hrun hempty).2 (returned_of_le hr.size)

/-- There is no data, and the size comes out where the offset is in a hole. -/
theorem HoleSearch.not_seeks (hr : HoleSearch f offset m s) (hdata : ¬s.dataFound = true) :
    ¬Seeks f true offset := by
  have hlt := hr.lt
  have hrun := hr.run
  have hle : offset / 4096 ≤ f.iSize / 4096 := Nat.div_le_div_right hlt.le
  have hnone : pmfsFindDataBlock f (offset / 4096) = none := by
    by_contra hA
    exact hdata (hr.data.2 ⟨_, le_rfl, hle, hA⟩)
  have hzero : m = 0 := by
    by_contra hne
    exact hr.before _ le_rfl (by omega) hnone
  have hhole : s.holeFound = true := hr.holes.2 ⟨_, le_rfl, hle, hnone⟩
  have hleast : IsLeast (wanted f true offset) (max offset (offset / 4096 * 4096)) :=
    isLeast_wanted hlt le_rfl (by omega) (by simpa using hnone) fun j hj hjd => by omega
  rw [max_eq_left (by omega)] at hleast
  have hregion : regionOffset true f.iSize offset s = (0, f.iSize) := by
    simp [regionOffset, hdata, hhole, hr.blocks, hzero]
  rw [hregion] at hrun
  rw [seeks_iff_of_isLeast hrun hleast]
  intro heq
  have := returned_zero_eq heq
  omega

theorem Paged.seeks_hole_iff (hp : Paged f h b node offset) :
    Seeks f true offset ↔ SeeksHole f offset := by
  have hnot : ¬(f.iBlocks = 0 ∨ f.root.isNull = true) := by simp [hp.iBlocks, hp.isNull]
  have hle : offset / 4096 ≤ f.iSize / 4096 := Nat.div_le_div_right hp.lt.le
  rw [SeeksHole, if_neg hnot, if_neg (by rw [hp.height]; omega), hp.height]
  by_cases hlast : f.iSize / 4096 < 512 ^ (h + 1)
  · obtain ⟨m, s, hr⟩ := hp.holeSearch hlast
    by_cases hdata : s.dataFound = true
    · refine iff_of_true ?_ ⟨hlast, hr.data.1 hdata⟩
      by_cases hhole : s.holeFound = true
      · exact hr.seeks_of_both hdata hhole
      · exact hr.seeks_of_data hdata hhole
    · exact iff_of_false (hr.not_seeks hdata) fun hcond => hdata (hr.data.2 hcond.2)
  · refine iff_of_false (not_seeks ?_) fun hcond => hlast hcond.1
    rw [hp.pmfsLlseek, recursiveFindRegion_hole_beyond hle (by omega)]
    rfl

/-! ## Data behind a page -/

/-- The search finds the first block that is there. -/
theorem Paged.data_found (hp : Paged f h b node offset) (hd : offset / 4096 ≤ d)
    (hdl : d ≤ f.iSize / 4096) (hA : pmfsFindDataBlock f d ≠ none)
    (hmin : ∀ k, offset / 4096 ≤ k → k < d → pmfsFindDataBlock f k = none) :
    File.pmfsLlseek f false offset = some (returned (0, if d = offset / 4096 then offset
      else (d + f.root.skipped (offset / 4096)) * 4096)) := by
  have hfind : ∀ k < 512 ^ (h + 1), pmfsFindDataBlock f k = (Slot.page b node).find k :=
    fun k hk => by rw [hp.find, if_neg (by omega)]
  have hin : d < 512 ^ (h + 1) := by
    by_contra hge
    rw [hp.find, if_pos (by omega)] at hA
    exact hA rfl
  have hstop : min (f.iSize / 4096) (512 ^ (h + 1) - 1) < 512 ^ (h + 1) := by omega
  obtain ⟨s, hs, hsought⟩ := recursiveFindRegion_sought (r := ⟨0, false, false⟩)
    (.page b node) rfl (show offset / 4096 ≤ min (f.iSize / 4096) (512 ^ (h + 1) - 1) by omega)
    hstop
  obtain ⟨hdata, hblocks, hhole⟩ := hsought.found d hd (by omega)
    (by rwa [← hfind d hin]) fun k hk hkd => by
      rw [← hfind k (by omega)]
      exact not_not.2 (hmin k hk hkd)
  have hrun : recursiveFindRegion false (.page b node) (offset / 4096) (f.iSize / 4096)
      ⟨0, false, false⟩ = some s := by
    by_cases hlast : f.iSize / 4096 < 512 ^ (h + 1)
    · rwa [min_eq_left (by omega)] at hs
    · rw [min_eq_right (by omega)] at hs
      rw [recursiveFindRegion_data_beyond (by omega) (by omega), hs, Option.bind_some,
        if_pos hdata]
  rw [hp.pmfsLlseek, hrun, Option.map_some, hp.skipped]
  dsimp only at hblocks
  simp only [Bool.false_eq_true, false_or] at hhole
  by_cases heq : d = offset / 4096
  · have hfalse : ¬s.holeFound = true := fun h => by have := hhole.1 h; omega
    rw [if_pos heq]
    simp [regionOffset, hdata, hfalse]
  · have hsum : offset / 4096 + s.blocks = d + (Slot.page b node).skipped (offset / 4096) := by
      omega
    rw [if_neg heq, regionOffset_counts hdata (hhole.2 (by omega)) (by omega), hsum]

/-- Without data the search goes on to the block of the size. -/
theorem Paged.data_missed (hp : Paged f h b node offset)
    (hnone : ∀ k, offset / 4096 ≤ k → k ≤ f.iSize / 4096 → pmfsFindDataBlock f k = none) :
    File.pmfsLlseek f false offset =
      if f.iSize / 4096 < 512 ^ (h + 1) then some (-6) else none := by
  have hle : offset / 4096 ≤ f.iSize / 4096 := Nat.div_le_div_right hp.lt.le
  rw [hp.pmfsLlseek]
  by_cases hfirst : offset / 4096 < 512 ^ (h + 1)
  · have hstop : min (f.iSize / 4096) (512 ^ (h + 1) - 1) < 512 ^ (h + 1) := by omega
    obtain ⟨s, hs, hsought⟩ := recursiveFindRegion_sought (r := ⟨0, false, false⟩)
      (.page b node) rfl (show offset / 4096 ≤ min (f.iSize / 4096) (512 ^ (h + 1) - 1) by omega)
      hstop
    obtain ⟨hdata, hhole, -⟩ := hsought.missed fun k hk hks => by
      have hfind := hnone k hk (by omega)
      rw [hp.find, if_neg (by omega)] at hfind
      exact not_not.2 hfind
    by_cases hlast : f.iSize / 4096 < 512 ^ (h + 1)
    · rw [min_eq_left (by omega)] at hs
      rw [if_pos hlast, hs, Option.map_some]
      simp only [regionOffset, hdata, hhole]
      rfl
    · rw [min_eq_right (by omega)] at hs
      rw [if_neg hlast, recursiveFindRegion_data_beyond hfirst (by omega), hs, Option.bind_some,
        hdata]
      rfl
  · rw [if_neg (by omega), recursiveFindRegion_outside hle (by omega)]
    rfl

theorem Paged.seeks_data_iff (hp : Paged f h b node offset) :
    Seeks f false offset ↔ SeeksData f offset := by
  have hlt := hp.lt
  have hle : offset / 4096 ≤ f.iSize / 4096 := Nat.div_le_div_right hlt.le
  have hiff : SeeksData f offset ↔ pmfsFindDataBlock f (offset / 4096) ≠ none ∨
      f.root.skipped (offset / 4096) = 0 ∧
        (∃ k, offset / 4096 ≤ k ∧ k * 4096 < f.iSize ∧ pmfsFindDataBlock f k ≠ none) ∨
      f.iSize / 4096 < 512 ^ (h + 1) ∧
        ∀ k, offset / 4096 ≤ k → k ≤ f.iSize / 4096 → pmfsFindDataBlock f k = none := by
    simp [SeeksData, hp.iBlocks, hp.isNull, hp.height]
  rw [hiff]
  obtain hnone | ⟨d, hd, hdl, hA, hmin⟩ :=
    exists_first (fun k => pmfsFindDataBlock f k ≠ none) (offset / 4096) (f.iSize / 4096 + 1)
  · have hall : ∀ k, offset / 4096 ≤ k → k ≤ f.iSize / 4096 → pmfsFindDataBlock f k = none :=
      fun k hk hks => not_not.1 (hnone k hk (by omega))
    have hrun := hp.data_missed hall
    have hempty : wanted f false offset = ∅ :=
      wanted_eq_empty fun k hk hks => by simp [hall k hk (by omega)]
    by_cases hlast : f.iSize / 4096 < 512 ^ (h + 1)
    · rw [if_pos hlast] at hrun
      exact iff_of_true ((seeks_iff_of_empty hrun hempty).2 rfl) (.inr (.inr ⟨hlast, hall⟩))
    · rw [if_neg hlast] at hrun
      refine iff_of_false (not_seeks hrun) ?_
      rintro (hA | ⟨-, k, hk, hks, hA⟩ | ⟨hin, -⟩)
      · exact hA (hall _ le_rfl hle)
      · exact hA (hall k hk (by omega))
      · exact hlast hin
  · have hbefore : ∀ k, offset / 4096 ≤ k → k < d → pmfsFindDataBlock f k = none :=
      fun k hk hkd => not_not.1 (hmin k hk hkd)
    have hrun := hp.data_found hd (by omega) hA hbefore
    have hplace : d < 512 ^ (h + 1) := by
      by_contra hge
      rw [hp.find, if_pos (by omega)] at hA
      exact hA rfl
    have hwant : pmfsFindDataBlock f d = none ↔ false = true := by simpa using hA
    have hless : ∀ k, offset / 4096 ≤ k → k < d →
        ¬(pmfsFindDataBlock f k = none ↔ false = true) := fun k hk hkd => by
      simp [hbefore k hk hkd]
    by_cases heq : d = offset / 4096
    · rw [if_pos heq] at hrun
      have hleast := isLeast_wanted hlt hd (by omega) hwant hless
      rw [max_eq_left (by omega)] at hleast
      refine iff_of_true ((seeks_iff_of_isLeast hrun hleast).2 ?_) (.inl (heq ▸ hA))
      exact returned_of_le (hp.le_sMaxbytes hplace (by omega))
    · rw [if_neg heq] at hrun
      have hfirst : pmfsFindDataBlock f (offset / 4096) = none := hbefore _ le_rfl (by omega)
      by_cases hin : d * 4096 < f.iSize
      · have hleast := isLeast_wanted hlt hd hin hwant hless
        rw [max_eq_right (by omega)] at hleast
        rw [seeks_iff_of_isLeast hrun hleast]
        constructor
        · intro hret
          have hskip := returned_zero_eq hret
          exact .inr (.inl ⟨by omega, d, hd, hin, hA⟩)
        · rintro (hA' | ⟨hskip, -⟩ | ⟨-, hnone⟩)
          · exact absurd hfirst hA'
          · rw [hskip, Nat.add_zero]
            exact returned_of_le (hp.le_sMaxbytes hplace (by omega))
          · exact absurd (hnone d hd (by omega)) hA
      · have hempty : wanted f false offset = ∅ :=
          wanted_eq_empty fun k hk hks => hless k hk (by omega)
        rw [seeks_iff_of_empty hrun hempty]
        refine iff_of_false returned_zero_ne ?_
        rintro (hA' | ⟨-, k, hk, hks, hA'⟩ | ⟨-, hnone⟩)
        · exact hA' hfirst
        · exact hA' (hbefore k hk (by omega))
        · exact hA (hnone d hd (by omega))

/-! ## All files -/

theorem exists_paged (hheight : f.height ≤ 3) (hlt : offset < f.iSize) (hiBlocks : f.iBlocks ≠ 0)
    (hroot : f.root.isNull = false) (hpos : f.height ≠ 0) :
    ∃ (h b : ℕ) (node : ℕ → Slot h), Paged f h b node offset := by
  obtain ⟨height, root, iSize, iBlocks, eofblocks, iMode⟩ := f
  dsimp only at hheight hroot hpos
  cases root with
  | null => simp [Slot.isNull] at hroot
  | data b => exact absurd rfl hpos
  | @page h b node => exact ⟨h, b, node, rfl, rfl, by omega, hiBlocks, hlt⟩

/-- A file of three blocks, of which the second is a hole. -/
def gapped : File := ⟨1, pageOf 10 [.data 20, .null, .data 21], 12288, 2, false, 0⟩

theorem numData_gapped : gapped.iBlocks = numData gapped.root.entries := by
  have hentries : gapped.root.entries = {(1, 10), (0, 20), (0, 21)} := entries_pageOf (by decide)
  rw [hentries]
  rfl

end Wpmfs.File
