import Mathlib.Algebra.Order.Ring.Int
import Mathlib.Algebra.Order.Ring.Nat
import Mathlib.Data.List.Range
import Wpmfs.File.Write

/-!
# Flushes

A store reaches the media when its cache line is flushed. A write that bypasses the cache flushes
the lines at its edges; an `fsync` flushes the range that it is called for, up to the first hole.
-/

namespace Wpmfs.File

variable {f : File} {buf len addr pos x line i k n start stop pgoff b : ℕ} {lines : List ℕ}

/-! ## Cache lines -/

/-- The loop of `pmfs_flush_buffer`, from the index `i` on: the lines that it flushes. The index has
32 bits, and so it passes `2 ^ 26` values at most, or it never ends. -/
def flushFrom (buf len : ℕ) : (fuel i : ℕ) → Option (List ℕ)
  | 0, _ => none
  | fuel + 1, i =>
    if i < len then (flushFrom buf len fuel ((i + 64) % 2 ^ 32)).map ((buf + i) / 64 :: ·)
    else some []

/-- `pmfs_flush_buffer`. -/
def pmfsFlushBuffer (buf len : ℕ) : Option (List ℕ) :=
  flushFrom buf ((len + buf % 64) % 2 ^ 32) (2 ^ 26 + 1) 0

theorem flushFrom_eq (hlen : len + 64 ≤ 2 ^ 32) (hn : len ≤ 64 * (k + n)) :
    flushFrom buf len (n + 1) (64 * k) =
      some ((List.range' k ((len + 63) / 64 - k)).map (buf / 64 + ·)) := by
  induction n generalizing k with
  | zero =>
    have hend : (len + 63) / 64 - k = 0 := by omega
    rw [flushFrom, if_neg (by omega), hend]
    rfl
  | succ n ih =>
    rw [flushFrom]
    by_cases hk : 64 * k < len
    · have hnext : (64 * k + 64) % 2 ^ 32 = 64 * (k + 1) := by omega
      have hcount : (len + 63) / 64 - k = (len + 63) / 64 - (k + 1) + 1 := by omega
      have hline : (buf + 64 * k) / 64 = buf / 64 + k := by omega
      rw [if_pos hk, hnext, ih (by omega), hcount, List.range'_succ, List.map_cons, hline]
      rfl
    · have hend : (len + 63) / 64 - k = 0 := by omega
      rw [if_neg hk, hend]
      rfl

/-- The lines of a range are flushed, from the first one to the last one. -/
theorem pmfsFlushBuffer_eq (hlen : len + buf % 64 + 64 ≤ 2 ^ 32) :
    pmfsFlushBuffer buf len =
      some ((List.range ((len + buf % 64 + 63) / 64)).map (buf / 64 + ·)) := by
  have hsum : (len + buf % 64) % 2 ^ 32 = len + buf % 64 := Nat.mod_eq_of_lt (by omega)
  have hloop := @flushFrom_eq buf (len + buf % 64) 0 (2 ^ 26) hlen (by omega)
  rw [pmfsFlushBuffer, hsum, hloop, Nat.sub_zero, ← List.range_eq_range']

theorem mem_pmfsFlushBuffer (hpos : 0 < len) (hlen : len + buf % 64 + 64 ≤ 2 ^ 32) :
    ∃ lines, pmfsFlushBuffer buf len = some lines ∧
      ∀ line, line ∈ lines ↔ buf / 64 ≤ line ∧ line ≤ (buf + len - 1) / 64 := by
  refine ⟨_, pmfsFlushBuffer_eq hlen, fun line => ?_⟩
  simp only [List.mem_map, List.mem_range]
  constructor
  · rintro ⟨j, hj, rfl⟩
    omega
  · intro h
    exact ⟨line - buf / 64, by omega, by omega⟩

/-- The lines of a range are those that a byte of it is in, and each is flushed once. -/
theorem pmfsFlushBuffer_exact (buf len : ℕ) (hpos : 1 ≤ len)
    (hlen : len + buf % 64 < 2 ^ 32 - 64) :
    ∃ lines, pmfsFlushBuffer buf len = some lines ∧ lines.Nodup ∧
      ∀ line, line ∈ lines ↔ ∃ x, buf ≤ x ∧ x < buf + len ∧ x / 64 = line := by
  obtain ⟨lines, hlines, hmem⟩ := mem_pmfsFlushBuffer hpos (show len + buf % 64 + 64 ≤ _ by omega)
  refine ⟨lines, hlines, ?_, fun line => (hmem line).trans ⟨fun hline => ?_, ?_⟩⟩
  · rw [pmfsFlushBuffer_eq (by omega)] at hlines
    obtain rfl := Option.some.inj hlines
    exact List.nodup_range.map (add_right_injective _)
  · -- the first byte of the line, or that of the range
    exact ⟨max buf (64 * line), le_max_left .., by omega, by omega⟩
  · rintro ⟨x, hle, hlt, rfl⟩
    omega

/-- 60 bytes that begin inside of a line and end inside of the next one. -/
theorem pmfsFlushBuffer_exact_unaligned :
    ∃ lines, pmfsFlushBuffer 100 60 = some lines ∧ lines.Nodup ∧
      ∀ line, line ∈ lines ↔ ∃ x, 100 ≤ x ∧ x < 100 + 60 ∧ x / 64 = line :=
  pmfsFlushBuffer_exact 100 60 (by decide) (by decide)

/-! ## The edges of a copy -/

/-- `pmfs_flush_edge_cachelines`. -/
def pmfsFlushEdgeCachelines (pos len startAddr : ℕ) : Option (List ℕ) :=
  (if pos % 8 ≠ 0 then pmfsFlushBuffer startAddr 1 else some []).bind fun head =>
    (if (pos + len) % 8 ≠ 0 ∧ pos % 64 ≠ (pos + len) % 64 then pmfsFlushBuffer (startAddr + len) 1
      else some []).map (head ++ ·)

/-- The bytes that a copy to `addr` stores through the cache: those before the first boundary of 8
bytes, and those behind the last one. -/
def Cached (addr len x : ℕ) : Prop :=
  addr ≤ x ∧ x < addr + len ∧ (x < (addr + 7) / 8 * 8 ∨ (addr + len) / 8 * 8 ≤ x)

/-- The lines of all those bytes are flushed. -/
def FlushesEdges (pos len addr : ℕ) : Prop :=
  ∃ lines, pmfsFlushEdgeCachelines pos len addr = some lines ∧
    ∀ x, Cached addr len x → x / 64 ∈ lines

theorem pmfsFlushBuffer_one (buf : ℕ) : pmfsFlushBuffer buf 1 = some [buf / 64] := by
  have hone : (1 + buf % 64 + 63) / 64 = 1 := by omega
  rw [pmfsFlushBuffer_eq (by omega), hone]
  rfl

theorem pmfsFlushEdgeCachelines_eq : pmfsFlushEdgeCachelines pos len addr =
    some ((if pos % 8 ≠ 0 then [addr / 64] else []) ++
      if (pos + len) % 8 ≠ 0 ∧ pos % 64 ≠ (pos + len) % 64 then [(addr + len) / 64] else []) := by
  rw [pmfsFlushEdgeCachelines, pmfsFlushBuffer_one, pmfsFlushBuffer_one]
  split <;> split <;> rfl

/-- The flush at the end is left out where the copy ends at the place in a line that it starts at.
If it starts inside of 8 bytes, it ends inside of 8 bytes of another line then. -/
theorem flushesEdges_iff (hlen : 0 < len) (haddr : addr % 64 = pos % 64) :
    FlushesEdges pos len addr ↔ pos % 8 = 0 ∨ len % 64 ≠ 0 := by
  rw [FlushesEdges, pmfsFlushEdgeCachelines_eq]
  constructor
  · rintro ⟨lines, hlines, hflushed⟩
    obtain rfl := Option.some.inj hlines
    by_contra! h
    have hlast := hflushed (addr + len - 1) ⟨by omega, by omega, .inr (by omega)⟩
    rw [if_pos h.1, if_neg (by omega)] at hlast
    simp only [List.append_nil, List.mem_singleton] at hlast
    omega
  · intro h
    refine ⟨_, rfl, fun x hx => List.mem_append.mpr ?_⟩
    obtain ⟨hle, hlt, hhead | htail⟩ := hx
    · left
      rw [if_pos (by omega), List.mem_singleton]
      omega
    · by_cases hplace : pos % 64 = (pos + len) % 64
      · omega
      · right
        rw [if_pos ⟨by omega, hplace⟩, List.mem_singleton]
        omega

theorem flushesEdges_short : FlushesEdges 3 10 4099 :=
  (flushesEdges_iff (by decide) (by decide)).mpr (.inr (by decide))

/-- A copy of one line, from its second byte on. -/
theorem not_flushesEdges_line : ¬ ∀ pos len addr, 0 < len → addr % 64 = pos % 64 →
    FlushesEdges pos len addr := by
  intro h
  obtain ⟨lines, hlines, hflushed⟩ := h 1 64 1 (by decide) rfl
  rw [pmfsFlushEdgeCachelines_eq] at hlines
  obtain rfl := Option.some.inj hlines
  exact absurd (hflushed 64 ⟨by decide, by decide, by decide⟩) (by decide)

/-! ## `fsync` -/

/-- The loop of `pmfs_fsync`. A line is named by its block, which is aligned to pages, and its place
in it. -/
def fsyncLoop (f : File) (stop : ℕ) : (fuel start : ℕ) → Option (List (ℕ × ℕ))
  | 0, _ => none
  | fuel + 1, start =>
    let offset := start % 4096
    let nrFlushBytes := min (4096 - offset) (stop - start)
    match f.pmfsFindDataBlock (start / 4096) with
    | none => some []
    | some b =>
      (pmfsFlushBuffer offset nrFlushBytes).bind fun lines =>
        (if start + nrFlushBytes < stop then fsyncLoop f stop fuel (start + nrFlushBytes)
          else some []).map (lines.map (b, ·) ++ ·)

/-- `pmfs_fsync` from `start` up to `stop` inclusively: the lines that it flushes, or the error. -/
def pmfsFsync (f : File) (mapped : Bool) (start stop : ℕ) :
    Option (Except Error (List (ℕ × ℕ))) :=
  if !mapped then some (.ok [])
  else
    let stop := min (stop + 1) f.iSize
    if f.iSize = 0 ∨ stop ≤ start then some (.error .enodata)
    else
      (fsyncLoop f ((stop + 63) / 64 * 64) (stop / 4096 + 1) (start / 64 * 64)).map .ok

/-- The line lies in the range, in a block that no hole of the range comes before. -/
def Reaches (f : File) (start stop b line : ℕ) : Prop :=
  ∃ k, f.pmfsFindDataBlock k = some b ∧ line < 64 ∧ start ≤ k * 4096 + line * 64 ∧
    k * 4096 + line * 64 < stop ∧ ∀ j, start / 4096 ≤ j → j ≤ k → f.pmfsFindDataBlock j ≠ none

/-- From a page on, the lines are those of the page, and those from the next page on. -/
theorem reaches_page (hfind : f.pmfsFindDataBlock (start / 4096) = some b) (hstart : start % 64 = 0)
    {c : ℕ} : Reaches f start stop c line ↔
      (c = b ∧ start % 4096 / 64 ≤ line ∧ line < 64 ∧ start / 4096 * 4096 + line * 64 < stop) ∨
        Reaches f ((start / 4096 + 1) * 4096) stop c line := by
  constructor
  · rintro ⟨k, hk, hline, hle, hlt, hall⟩
    rcases Nat.lt_or_ge (start / 4096) k with hlater | hsame
    · exact .inr ⟨k, hk, hline, by omega, hlt, fun j hj hjk => hall j (by omega) hjk⟩
    · obtain rfl : k = start / 4096 := by omega
      rw [hfind] at hk
      exact .inl ⟨(Option.some.inj hk).symm, by omega, hline, hlt⟩
  · rintro (⟨rfl, hle, hline, hlt⟩ | ⟨k, hk, hline, hle, hlt, hall⟩)
    · refine ⟨start / 4096, hfind, hline, by omega, hlt, fun j hj hjk => ?_⟩
      obtain rfl : j = start / 4096 := by omega
      simp [hfind]
    · refine ⟨k, hk, hline, by omega, hlt, fun j hj hjk => ?_⟩
      rcases Nat.lt_or_ge (start / 4096) j with hlater | hsame
      · exact hall j (by omega) hjk
      · obtain rfl : j = start / 4096 := by omega
        simp [hfind]

/-- The loop flushes the lines of the range up to the first hole. -/
theorem fsyncLoop_spec (hstart : start % 64 = 0) (hstop : stop % 64 = 0) (hlt : start < stop)
    (hn : (stop - 1) / 4096 < start / 4096 + n) : ∃ lines, fsyncLoop f stop n start = some lines ∧
      ∀ b line, (b, line) ∈ lines ↔ Reaches f start stop b line := by
  induction n generalizing start with
  | zero => omega
  | succ n ih =>
    rw [fsyncLoop]
    cases hfind : f.pmfsFindDataBlock (start / 4096) with
    | none =>
      refine ⟨[], rfl, fun b line => iff_of_false (List.not_mem_nil) ?_⟩
      rintro ⟨k, -, hline, hle, -, hall⟩
      exact hall _ le_rfl (by omega) hfind
    | some b =>
      dsimp only
      generalize hnr : min (4096 - start % 4096) (stop - start) = nr
      obtain ⟨lines, hlines, hmem⟩ :=
        mem_pmfsFlushBuffer (show 0 < nr by omega)
          (show nr + start % 4096 % 64 + 64 ≤ 2 ^ 32 by omega)
      rw [hlines, Option.bind_some]
      have hpage : ∀ c line, (c, line) ∈ lines.map (b, ·) ↔
          c = b ∧ start % 4096 / 64 ≤ line ∧ line < 64 ∧ start / 4096 * 4096 + line * 64 < stop := by
        intro c line
        simp only [List.mem_map, Prod.mk.injEq, hmem]
        constructor
        · rintro ⟨line, hline, rfl, rfl⟩
          exact ⟨rfl, by omega, by omega, by omega⟩
        · rintro ⟨rfl, hline⟩
          exact ⟨line, by omega, rfl, rfl⟩
      by_cases hmore : start + nr < stop
      · have hnext : start + nr = (start / 4096 + 1) * 4096 := by omega
        rw [if_pos hmore, hnext]
        obtain ⟨rest, hrest, hmem'⟩ := @ih ((start / 4096 + 1) * 4096) (by omega)
          (by omega) (by omega)
        refine ⟨lines.map (b, ·) ++ rest, by rw [hrest]; rfl, fun c line => ?_⟩
        rw [List.mem_append, hpage, hmem', reaches_page hfind hstart]
      · rw [if_neg hmore]
        refine ⟨lines.map (b, ·) ++ [], rfl, fun c line => ?_⟩
        rw [List.append_nil, hpage, reaches_page hfind hstart, or_iff_left]
        rintro ⟨k, -, -, hle, hlt, -⟩
        omega

/-- If the call succeeds, the lines of all allocated blocks in the range and below the size are
flushed. -/
def Syncs (f : File) (start stop : ℕ) : Prop :=
  ∃ r, pmfsFsync f true start stop = some r ∧ ∀ lines, r = .ok lines →
    ∀ x b, start ≤ x → x ≤ stop → x < f.iSize → f.pmfsFindDataBlock (x / 4096) = some b →
      (b, x % 4096 / 64) ∈ lines

end Wpmfs.File
