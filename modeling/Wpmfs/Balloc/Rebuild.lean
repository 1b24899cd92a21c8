import Mathlib.Algebra.Order.Ring.Int
import Mathlib.Algebra.Order.Ring.Nat
import Mathlib.Data.List.Nodup
import Wpmfs.Balloc.Bins

/-!
# Rebuilding the bins at mount

`wpmfs_setup_blocknode_map` first takes every block as used and then frees, run by run, the
blocks whose bit the crawl of the inode table left clear. The bitmap has whole bytes and one
byte more than the blocks fill.
-/

namespace Wpmfs.Balloc

/-- The first of the `n` positions from `offset` on that meets `p`, or the end. -/
def findFrom (p : Nat → Bool) : Nat → Nat → Nat
  | 0, offset => offset
  | n + 1, offset => if p offset then offset else findFrom p n (offset + 1)

/-- `find_next_bit` and, on the complement, `find_next_zero_bit`. -/
def findNext (p : Nat → Bool) (size offset : Nat) : Nat :=
  if offset ≤ size then findFrom p (size - offset) offset else size

theorem findFrom_le (p : Nat → Bool) (n offset : Nat) :
    offset ≤ findFrom p n offset ∧ findFrom p n offset ≤ offset + n := by
  fun_induction findFrom p n offset <;> grind

theorem findFrom_skipped {p : Nat → Bool} {n offset b : Nat} (hb : offset ≤ b)
    (h : b < findFrom p n offset) : p b = false := by
  fun_induction findFrom p n offset <;> grind

theorem findFrom_found {p : Nat → Bool} {n offset : Nat}
    (h : findFrom p n offset < offset + n) : p (findFrom p n offset) = true := by
  fun_induction findFrom p n offset <;> grind

section FindNext

variable {p : Nat → Bool} {size offset b : Nat}

theorem findNext_bounds (h : offset ≤ size) :
    offset ≤ findNext p size offset ∧ findNext p size offset ≤ size := by
  have := findFrom_le p (size - offset) offset
  grind [findNext]

theorem findNext_skipped (h : offset ≤ size) (hb : offset ≤ b)
    (hlt : b < findNext p size offset) : p b = false := by
  rw [findNext, if_pos h] at hlt
  exact findFrom_skipped hb hlt

theorem findNext_found (h : offset ≤ size) (hlt : findNext p size offset < size) :
    p (findNext p size offset) = true := by
  rw [findNext, if_pos h] at hlt ⊢
  exact findFrom_found (by omega)

/-- A run that starts where `p` fails has a length. -/
theorem lt_findNext (h : offset < size) (hp : p offset = false) :
    offset < findNext p size offset := by
  have hb := findNext_bounds (p := p) h.le
  refine lt_of_le_of_ne hb.1 fun he => ?_
  have := findNext_found (p := p) h.le (by omega)
  grind

end FindNext

namespace BinAlloc

/-- The body of `wpmfs_try_free_blocks`. `cnter b` is what the counter of `b` reads when `b` is
freed. -/
def wpmfsTryFreeBlock (power : Nat) (cnter : Nat → UInt64) (s : BinAlloc) (b : Nat) :
    Option BinAlloc :=
  if (s.pageMarks b).pageUsing then some s else s.wpmfsFreeBlock power cnter b .b4K

/-- `wpmfs_try_free_blocks`. -/
def wpmfsTryFreeBlocks (power : Nat) (cnter : Nat → UInt64) (s : BinAlloc) (low high : Nat) :
    Option BinAlloc :=
  (List.range' low (high - low)).foldlM (wpmfsTryFreeBlock power cnter) s

/-- The loop of `__wpmfs_build_blocknode_map`, which ends with the values of `low` and `next`. -/
def buildLoop (power : Nat) (cnter : Nat → UInt64) (bitmap : Nat → Bool) (bsize : Nat)
    (s : BinAlloc) (low next : Nat) : Option (BinAlloc × Nat × Nat) :=
  let clear := findNext (!bitmap ·) bsize next
  if hc : next ≤ bsize ∧ clear < bsize then
    let used := findNext bitmap bsize clear
    match s.wpmfsTryFreeBlocks power cnter clear used with
    | none => none
    | some s =>
      if used = bsize then some (s, clear, used)
      else buildLoop power cnter bitmap bsize s clear used
  else some (s, low, clear)
termination_by bsize - next
decreasing_by
  change bsize - findNext bitmap bsize (findNext (!bitmap ·) bsize next) < bsize - next
  have := findNext_bounds (p := (!bitmap ·)) hc.1
  have hlt : findNext (!bitmap ·) bsize next < bsize := hc.2
  have := lt_findNext (p := bitmap) hlt (by simpa using findNext_found hc.1 hlt)
  omega

/-- `__wpmfs_build_blocknode_map`. -/
def wpmfsBuildBlocknodeMap (power : Nat) (cnter : Nat → UInt64) (bitmap : Nat → Bool)
    (bsize : Nat) (s : BinAlloc) : Option BinAlloc :=
  match buildLoop power cnter bitmap bsize s 0 1 with
  | none => none
  | some (s, low, next) => if low = 0 then s.wpmfsTryFreeBlocks power cnter low next else some s

/-- `wpmfs_setup_blocknode_map`, past the crawl that built `bitmap`. -/
def wpmfsSetupBlocknodeMap (power : Nat) (cnter : Nat → UInt64) (bitmap : Nat → Bool)
    (initsize : Nat) (s : BinAlloc) : Option BinAlloc :=
  let bitmapSize := initsize / 2 ^ 15 + 1
  let s := { s with
    blockStart := 0
    blockEnd := initsize / 4096
    numFreeBlocks := s.numFreeBlocks + initsize / 4096 }
  (s.wpmfsInitBlockmap initsize).wpmfsBuildBlocknodeMap power cnter bitmap (bitmapSize * 8)

/-! ## The blocks the scan visits -/

/-- The positions from `next` on whose bit is clear. -/
def clearBits (bitmap : Nat → Bool) (bsize next : Nat) : List Nat :=
  (List.range' next (bsize - next)).filter (!bitmap ·)

/-- The blocks given to `wpmfs_try_free_blocks`: all of them if no bit from 1 on is clear. -/
def visited (bitmap : Nat → Bool) (bsize : Nat) : List Nat :=
  if clearBits bitmap bsize 1 = [] then List.range' 0 bsize else clearBits bitmap bsize 1

section Scan

variable {power : Nat} {cnter : Nat → UInt64} {bitmap : Nat → Bool} {bsize next : Nat}

@[simp] theorem mem_clearBits {b : Nat} :
    b ∈ clearBits bitmap bsize next ↔ next ≤ b ∧ b < bsize ∧ bitmap b = false := by
  simp only [clearBits, List.mem_filter, List.mem_range'_1, Bool.not_eq_true', and_assoc]
  constructor <;> rintro ⟨h, hlt, hbit⟩ <;> exact ⟨h, by omega, hbit⟩

theorem visited_nodup : (visited bitmap bsize).Nodup := by
  unfold visited clearBits
  split
  · exact List.nodup_range'
  · exact List.Nodup.filter _ List.nodup_range'

theorem clearBits_eq_nil (h : next ≤ bsize) (hc : findNext (!bitmap ·) bsize next = bsize) :
    clearBits bitmap bsize next = [] := by
  refine List.eq_nil_iff_forall_not_mem.2 fun b hb => ?_
  obtain ⟨hle, hlt, hbit⟩ := mem_clearBits.1 hb
  have := findNext_skipped (p := (!bitmap ·)) h hle (by omega)
  simp [hbit] at this

/-- One round of the loop visits the next run of clear bits. -/
theorem clearBits_eq_append {clear used : Nat} (h : next ≤ bsize)
    (hclear : findNext (!bitmap ·) bsize next = clear)
    (hused : findNext bitmap bsize clear = used) (hc : clear < bsize) :
    next ≤ clear ∧ clear < used ∧ used ≤ bsize ∧ clearBits bitmap bsize next ≠ [] ∧
      clearBits bitmap bsize next = List.range' clear (used - clear) ++
        clearBits bitmap bsize used := by
  have h1 := findNext_bounds (p := (!bitmap ·)) h
  have h2 := findNext_bounds (p := bitmap) hc.le
  have hbit : bitmap clear = false := by
    have := findNext_found (p := (!bitmap ·)) h (by omega)
    simpa [hclear] using this
  have h3 := lt_findNext hc hbit
  refine ⟨by omega, by omega, by omega,
    List.ne_nil_of_mem (mem_clearBits.2 ⟨by omega, hc, hbit⟩), ?_⟩
  unfold clearBits
  have hsplit : List.range' next (bsize - next) = List.range' next (clear - next) ++
      (List.range' clear (used - clear) ++ List.range' used (bsize - used)) := by
    have e1 : clear = next + (clear - next) := by omega
    have e2 : used = clear + (used - clear) := by omega
    conv_rhs => rw [e2, Nat.add_sub_cancel_left, List.range'_append_1]
    conv_rhs => enter [2]; rw [e1]
    rw [List.range'_append_1]
    congr 1
    omega
  rw [hsplit, List.filter_append, List.filter_append]
  have hskip : (List.range' next (clear - next)).filter (!bitmap ·) = [] := by
    refine List.filter_eq_nil_iff.2 fun b hb => ?_
    have := List.mem_range'_1.1 hb
    have := findNext_skipped (p := (!bitmap ·)) (b := b) h this.1 (by omega)
    simpa using this
  have htake : (List.range' clear (used - clear)).filter (!bitmap ·) =
      List.range' clear (used - clear) := by
    refine List.filter_eq_self.2 fun b hb => ?_
    have := List.mem_range'_1.1 hb
    have := findNext_skipped (p := bitmap) (b := b) hc.le this.1 (by omega)
    simpa using this
  rw [hskip, htake, List.nil_append]

/-- The loop frees along `clearBits`; it leaves `low` alone just when there are none. -/
theorem buildLoop_eq (s : BinAlloc) (low : Nat) (h : next ≤ bsize) :
    ∃ low', buildLoop power cnter bitmap bsize s low next =
        ((clearBits bitmap bsize next).foldlM (wpmfsTryFreeBlock power cnter) s).map
          (·, low', bsize) ∧
      (clearBits bitmap bsize next = [] → low' = low) ∧
      (clearBits bitmap bsize next ≠ [] → next ≤ low') := by
  fun_induction buildLoop power cnter bitmap bsize s low next with
  | case1 s low next clear hc used none =>
    obtain ⟨hle, hlt, -, hne, happ⟩ := clearBits_eq_append h rfl rfl hc.2
    refine ⟨clear, ?_, fun hnil => absurd hnil hne, fun _ => hle⟩
    rw [happ, List.foldlM_append]
    change Option.none = Option.map _ (wpmfsTryFreeBlocks power cnter s clear used >>= _)
    rw [none]
    rfl
  | case2 s low next clear hc used s' some hend =>
    obtain ⟨hle, hlt, -, hne, happ⟩ := clearBits_eq_append h rfl rfl hc.2
    refine ⟨clear, ?_, fun hnil => absurd hnil hne, fun _ => hle⟩
    rw [happ, List.foldlM_append]
    change _ = Option.map _ (wpmfsTryFreeBlocks power cnter s clear used >>= _)
    change _ = Option.map _ (_ >>= fun s => (clearBits bitmap bsize used).foldlM _ s)
    rw [some, hend, clearBits, Nat.sub_self]
    rfl
  | case3 s low next clear hc used s' some hend ih =>
    obtain ⟨hle, hlt, hb, hne, happ⟩ := clearBits_eq_append h rfl rfl hc.2
    obtain ⟨low', heq, hlow, hlow'⟩ := ih hb
    refine ⟨low', ?_, fun hnil => absurd hnil hne, fun _ => ?_⟩
    · rw [happ, List.foldlM_append, heq]
      change _ = Option.map _ (wpmfsTryFreeBlocks power cnter s clear used >>= _)
      rw [some]
      rfl
    · by_cases hnil : clearBits bitmap bsize used = []
      · exact (hlow hnil).symm ▸ hle
      · exact (hle.trans hlt.le).trans (hlow' hnil)
  | case4 s low next clear hc =>
    have hb := findNext_bounds (p := (!bitmap ·)) h
    have hclear : clear = bsize := by
      change findNext (!bitmap ·) bsize next = bsize
      have : ¬findNext (!bitmap ·) bsize next < bsize := fun hlt => hc ⟨h, hlt⟩
      omega
    have hnil := clearBits_eq_nil h hclear
    refine ⟨low, ?_, fun _ => rfl, fun hne => absurd hnil hne⟩
    rw [hnil, hclear]
    rfl

/-- The rebuild tries to free what it visits, and nothing else. -/
theorem wpmfsBuildBlocknodeMap_eq (s : BinAlloc) (h : 1 ≤ bsize) :
    s.wpmfsBuildBlocknodeMap power cnter bitmap bsize =
      (visited bitmap bsize).foldlM (wpmfsTryFreeBlock power cnter) s := by
  obtain ⟨low, heq, hlow, hlow'⟩ := @buildLoop_eq power cnter bitmap bsize 1 s 0 h
  rw [wpmfsBuildBlocknodeMap, heq, visited]
  by_cases hnil : clearBits bitmap bsize 1 = []
  · rw [if_pos hnil, hnil, hlow hnil]
    rfl
  · rw [if_neg hnil]
    have hne : low ≠ 0 := by have := hlow' hnil; omega
    cases (clearBits bitmap bsize 1).foldlM (wpmfsTryFreeBlock power cnter) s with
    | none => rfl
    | some s' => simp [hne]

end Scan

/-! ## What is freed -/

/-- The counter of a block that is freed selects a bin, and the block is not block 0. -/
def Freeable (power : Nat) (cnter : Nat → UInt64) (b : Nat) : Prop :=
  b ≠ 0 ∧ 0 ≤ toInt ((cnter b).toNat / getIntThresSize power)

/-- The blocks in `l` whose page is not marked in use. -/
def unmarked (s : BinAlloc) (l : List Nat) : List Nat :=
  l.filter fun b => !(s.pageMarks b).pageUsing

section Freed

variable {power : Nat} {cnter : Nat → UInt64} {s s' : BinAlloc}

@[simp] theorem mem_unmarked {l : List Nat} {b : Nat} :
    b ∈ unmarked s l ↔ b ∈ l ∧ (s.pageMarks b).pageUsing = false := by
  simp [unmarked]

theorem wpmfsFreeBlock_some_iff (hb : s.blockBins ≠ []) {b : Nat} {btype : BlockType} :
    (∃ s', s.wpmfsFreeBlock power cnter b btype = some s') ↔ Freeable power cnter b := by
  rw [Freeable, ← wpmfsGetBin_nonneg hb, wpmfsFreeBlock]
  split
  · simp; omega
  · simp; omega

/-- A free adds the block to one bin and marks its page. -/
theorem wpmfsFreeBlock_spec (hb : s.blockBins ≠ []) {b : Nat} {btype : BlockType}
    (h : s.wpmfsFreeBlock power cnter b btype = some s') :
    s'.blockBins ≠ [] ∧ s'.blockBins.flatten.Perm (b :: s.blockBins.flatten) ∧
      s'.pageMarks = Function.update s.pageMarks b .inUse := by
  obtain ⟨h0, hbin⟩ := (wpmfsFreeBlock_some_iff hb).1 ⟨s', h⟩
  have hlt := wpmfsGetBin_lt hb power (cnter b)
  rw [wpmfsFreeBlock_eq h0 ((wpmfsGetBin_nonneg hb).2 hbin), Option.some.injEq] at h
  generalize (s.wpmfsGetBin power (cnter b)).toNat = i at hlt h
  subst h
  refine ⟨?_, modify_flatten_perm b hlt, rfl⟩
  simpa [← List.length_pos_iff] using List.length_pos_iff.2 hb

theorem unmarked_update {l : List Nat} {b : Nat} (hb : b ∉ l)
    (h : s'.pageMarks = Function.update s.pageMarks b .inUse) :
    unmarked s' l = unmarked s l := by
  refine List.filter_congr fun c hc => ?_
  rw [h, Function.update_of_ne (by rintro rfl; exact hb hc)]

/-- Trying a list of distinct blocks works iff the unmarked ones can be freed. -/
theorem tryFree_some_iff (hb : s.blockBins ≠ []) {l : List Nat} (hl : l.Nodup) :
    (∃ s', l.foldlM (wpmfsTryFreeBlock power cnter) s = some s') ↔
      ∀ b ∈ unmarked s l, Freeable power cnter b := by
  induction l generalizing s with
  | nil => simp [unmarked]
  | cons b l ih =>
    obtain ⟨hbl, hl⟩ := List.nodup_cons.1 hl
    rw [List.foldlM_cons, wpmfsTryFreeBlock]
    cases hm : (s.pageMarks b).pageUsing with
    | true =>
      simp only [if_true, Option.bind_eq_bind, Option.bind_some]
      rw [ih hb hl]
      simp [unmarked, hm]
    | false =>
      have hcons : unmarked s (b :: l) = b :: unmarked s l := by simp [unmarked, hm]
      rw [if_neg (by simp), hcons, List.forall_mem_cons,
        ← @wpmfsFreeBlock_some_iff power cnter s hb b .b4K]
      cases hf : s.wpmfsFreeBlock power cnter b .b4K with
      | none => simp
      | some s₁ =>
        obtain ⟨hb₁, -, hmarks⟩ := wpmfsFreeBlock_spec hb hf
        simpa [unmarked_update hbl hmarks] using ih hb₁ hl

theorem tryFree_perm (hb : s.blockBins ≠ []) {l : List Nat} (hl : l.Nodup)
    (h : l.foldlM (wpmfsTryFreeBlock power cnter) s = some s') :
    s'.blockBins.flatten.Perm (unmarked s l ++ s.blockBins.flatten) := by
  induction l generalizing s with
  | nil =>
    obtain rfl : s = s' := by simpa using h
    exact List.Perm.refl _
  | cons b l ih =>
    obtain ⟨hbl, hl⟩ := List.nodup_cons.1 hl
    rw [List.foldlM_cons, wpmfsTryFreeBlock] at h
    cases hm : (s.pageMarks b).pageUsing with
    | true =>
      have hcons : unmarked s (b :: l) = unmarked s l := by simp [unmarked, hm]
      rw [hcons]
      exact ih hb hl (by simpa [hm] using h)
    | false =>
      have hcons : unmarked s (b :: l) = b :: unmarked s l := by simp [unmarked, hm]
      rw [hm, if_neg (by simp)] at h
      obtain ⟨s₁, hf, hrest⟩ := Option.bind_eq_some_iff.1 h
      obtain ⟨hb₁, hperm, hmarks⟩ := wpmfsFreeBlock_spec hb hf
      have hrest := ih hb₁ hl hrest
      rw [unmarked_update hbl hmarks] at hrest
      rw [hcons]
      exact (hrest.trans (hperm.append_left _)).trans List.perm_middle

end Freed

end BinAlloc

/-! ## When the rebuild is exact -/

section Exact

variable (power : Nat) (cnter : Nat → UInt64) (bitmap : Nat → Bool) (initsize : Nat)

/-- The blocks the rebuild is for: in the device, not block 0, bit clear, page not marked. -/
def unowned (s : BinAlloc) (bitmap : Nat → Bool) (blockEnd : Nat) : List Nat :=
  s.unmarked (BinAlloc.clearBits bitmap blockEnd 1)

/-- After the rebuild the bins hold what they held before and the unowned blocks, which are new
to them. -/
def RebuildsExactly (s : BinAlloc) : Prop :=
  ∃ s', s.wpmfsSetupBlocknodeMap power cnter bitmap initsize = some s' ∧
    s'.blockBins.flatten.Perm
      (unowned s bitmap (initsize / 4096) ++ s.blockBins.flatten) ∧
    ∀ b ∈ unowned s bitmap (initsize / 4096), b ∉ s.blockBins.flatten

/-- No block beyond the device is taken for free, nothing is freed because no bit is clear, and
the counter of every block to be freed selects a bin. -/
structure Contained (s : BinAlloc) : Prop where
  beyond : ∀ b, 1 ≤ b → initsize / 4096 ≤ b → b < (initsize / 2 ^ 15 + 1) * 8 →
    bitmap b = false → (s.pageMarks b).pageUsing
  noneClear : (∀ b, 1 ≤ b → b < (initsize / 2 ^ 15 + 1) * 8 → bitmap b) →
    ∀ b < (initsize / 2 ^ 15 + 1) * 8, (s.pageMarks b).pageUsing
  counters : ∀ b ∈ unowned s bitmap (initsize / 4096),
    0 ≤ toInt ((cnter b).toNat / getIntThresSize power)

variable {power cnter bitmap initsize} {s s' : BinAlloc}

/-- A freed block is marked: so what the bins hold is not freed again. -/
def Marked (s : BinAlloc) : Prop := ∀ b ∈ s.blockBins.flatten, (s.pageMarks b).pageUsing

theorem unowned_nodup (s : BinAlloc) (blockEnd : Nat) : (unowned s bitmap blockEnd).Nodup :=
  List.Nodup.filter _ (List.Nodup.filter _ List.nodup_range')

theorem mem_unowned {b blockEnd : Nat} : b ∈ unowned s bitmap blockEnd ↔
    (1 ≤ b ∧ b < blockEnd ∧ bitmap b = false) ∧ (s.pageMarks b).pageUsing = false := by
  simp [unowned]

theorem mem_visited {b bsize : Nat} : b ∈ BinAlloc.visited bitmap bsize ↔
    b < bsize ∧ ((1 ≤ b ∧ bitmap b = false) ∨ ∀ c, 1 ≤ c → c < bsize → bitmap c) := by
  unfold BinAlloc.visited
  split
  case isTrue hnil =>
    have hall : ∀ c, 1 ≤ c → c < bsize → bitmap c := fun c h1 hc => by
      by_contra hbit
      have := BinAlloc.mem_clearBits.2 ⟨h1, hc, Bool.not_eq_true _ ▸ hbit⟩
      simp [hnil] at this
    simp only [List.mem_range'_1]
    exact ⟨fun h => ⟨by omega, .inr hall⟩, fun h => by omega⟩
  case isFalse hne =>
    obtain ⟨c, hc⟩ := List.exists_mem_of_ne_nil _ hne
    rw [BinAlloc.mem_clearBits] at hc ⊢
    constructor
    · exact fun h => ⟨h.2.1, .inl ⟨h.1, h.2.2⟩⟩
    · rintro ⟨hb, h | hall⟩
      · exact ⟨h.1, hb, h.2⟩
      · have := hall c hc.1 hc.2.1
        simp [hc.2.2] at this

/-- The rebuild visits every unowned block. -/
theorem unowned_subset_visited {b : Nat} (hb : b ∈ unowned s bitmap (initsize / 4096)) :
    b ∈ s.unmarked (BinAlloc.visited bitmap ((initsize / 2 ^ 15 + 1) * 8)) := by
  obtain ⟨⟨h1, hlt, hbit⟩, hmark⟩ := mem_unowned.1 hb
  rw [BinAlloc.mem_unmarked, mem_visited]
  exact ⟨⟨by omega, .inl ⟨h1, hbit⟩⟩, hmark⟩

/-- Under the condition it frees no other. -/
theorem Contained.visited_subset (h : Contained power cnter bitmap initsize s) {b : Nat}
    (hb : b ∈ s.unmarked (BinAlloc.visited bitmap ((initsize / 2 ^ 15 + 1) * 8))) :
    b ∈ unowned s bitmap (initsize / 4096) := by
  rw [BinAlloc.mem_unmarked, mem_visited] at hb
  obtain ⟨⟨hlt, hv⟩, hmark⟩ := hb
  rw [mem_unowned]
  obtain ⟨h1, hbit⟩ | hall := hv
  · refine ⟨⟨h1, ?_, hbit⟩, hmark⟩
    by_contra hge
    simp [h.beyond b h1 (by omega) hlt hbit] at hmark
  · simp [h.noneClear hall b hlt] at hmark

/-- The rebuild is exact iff the condition holds. -/
theorem rebuildsExactly_iff (hbins : s.blockBins ≠ []) (hm : Marked s) :
    RebuildsExactly power cnter bitmap initsize s ↔
      Contained power cnter bitmap initsize s := by
  let t : BinAlloc := BinAlloc.wpmfsInitBlockmap { s with
    blockStart := 0
    blockEnd := initsize / 4096
    numFreeBlocks := s.numFreeBlocks + initsize / 4096 } initsize
  have hrun : s.wpmfsSetupBlocknodeMap power cnter bitmap initsize =
      (BinAlloc.visited bitmap ((initsize / 2 ^ 15 + 1) * 8)).foldlM
        (BinAlloc.wpmfsTryFreeBlock power cnter) t :=
    BinAlloc.wpmfsBuildBlocknodeMap_eq t (by omega)
  have htb : t.blockBins ≠ [] := hbins
  have htm : ∀ l, t.unmarked l = s.unmarked l := fun l => rfl
  have hnodup := @BinAlloc.visited_nodup bitmap ((initsize / 2 ^ 15 + 1) * 8)
  have hiff := @BinAlloc.tryFree_some_iff power cnter t htb _ hnodup
  rw [htm] at hiff
  unfold RebuildsExactly
  rw [hrun]
  constructor
  · rintro ⟨s', hs', hperm, -⟩
    have hfree := hiff.1 ⟨s', hs'⟩
    have hout := BinAlloc.tryFree_perm htb hnodup hs'
    rw [htm] at hout
    have hsame := (List.perm_append_right_iff _).1 (hout.symm.trans hperm)
    refine ⟨fun b h1 hge hlt hbit => ?_, fun hall b hlt => ?_, fun b hb => ?_⟩
    · by_contra hmark
      have hv : b ∈ s.unmarked (BinAlloc.visited bitmap ((initsize / 2 ^ 15 + 1) * 8)) :=
        BinAlloc.mem_unmarked.2
          ⟨mem_visited.2 ⟨hlt, .inl ⟨h1, hbit⟩⟩, by simpa using hmark⟩
      have := (mem_unowned.1 (hsame.mem_iff.1 hv)).1
      omega
    · by_contra hmark
      have hv : b ∈ s.unmarked (BinAlloc.visited bitmap ((initsize / 2 ^ 15 + 1) * 8)) :=
        BinAlloc.mem_unmarked.2 ⟨mem_visited.2 ⟨hlt, .inr hall⟩, by simpa using hmark⟩
      obtain ⟨h1, -, hbit⟩ := (mem_unowned.1 (hsame.mem_iff.1 hv)).1
      simp [hall b h1 hlt] at hbit
    · exact (hfree b (hsame.mem_iff.2 hb)).2
  · intro h
    have hsame : (s.unmarked (BinAlloc.visited bitmap ((initsize / 2 ^ 15 + 1) * 8))).Perm
        (unowned s bitmap (initsize / 4096)) :=
      (List.perm_ext_iff_of_nodup (List.Nodup.filter _ hnodup) (unowned_nodup s _)).2 fun b =>
        ⟨h.visited_subset, unowned_subset_visited⟩
    obtain ⟨s', hs'⟩ := hiff.2 fun b hb => by
      have hb := h.visited_subset hb
      have := (mem_unowned.1 hb).1.1
      exact ⟨by omega, h.counters b hb⟩
    have hout := BinAlloc.tryFree_perm htb hnodup hs'
    rw [htm] at hout
    refine ⟨s', hs', hout.trans (hsame.append_right _), fun b hb hold => ?_⟩
    have := (mem_unowned.1 hb).2
    simp [hm b hold] at this

/-- What happens to the allocator between the mount and the rebuild. -/
inductive MountStep (power : Nat) : BinAlloc → BinAlloc → Prop where
  | freeBlock {s s' : BinAlloc} {cnter : Nat → UInt64} {b : Nat} {btype : BlockType}
      (h : s.wpmfsFreeBlock power cnter b btype = some s') : MountStep power s s'
  | newBlock {s : BinAlloc} : MountStep power s s.wpmfsNewBlock.2

theorem MountStep.marked (h : MountStep power s s') (hb : s.blockBins ≠ []) (hm : Marked s) :
    s'.blockBins ≠ [] ∧ Marked s' := by
  have hupd : ∀ b c, (s.pageMarks c).pageUsing →
      (Function.update s.pageMarks b PageMarks.inUse c).pageUsing := fun b c hc => by
    by_cases h : c = b
    · simp [h]
    · rwa [Function.update_of_ne h]
  cases h with
  | freeBlock h =>
    obtain ⟨hb', hperm, hmarks⟩ := BinAlloc.wpmfsFreeBlock_spec hb h
    refine ⟨hb', fun c hc => ?_⟩
    rw [hmarks]
    rcases List.mem_cons.1 (hperm.mem_iff.1 hc) with rfl | hc
    · simp
    · exact hupd _ _ (hm c hc)
  | newBlock =>
    unfold BinAlloc.wpmfsNewBlock
    split
    · exact ⟨hb, fun c hc => hupd _ _ (hm c hc)⟩
    split
    case h_1 b bins hs =>
      have ht := BinAlloc.searchBins_some hs
      refine ⟨?_, fun c hc => hupd _ _ (hm c (ht.perm.mem_iff.2 (List.mem_cons_of_mem _ hc)))⟩
      obtain ⟨pre, bin, post, -, rfl, -, -⟩ := ht.split
      simp
    case h_2 => exact ⟨hb, hm⟩

theorem MountStep.run_marked (run : Relation.ReflTransGen (MountStep power) s s')
    (hb : s.blockBins ≠ []) (hm : Marked s) : s'.blockBins ≠ [] ∧ Marked s' := by
  induction run with
  | refl => exact ⟨hb, hm⟩
  | tail _ step ih => exact step.marked ih.1 ih.2

/-- At every mount, whatever was freed before it, the rebuild frees exactly the unowned blocks
iff the condition holds. -/
theorem wpmfsSetupBlocknodeMap_exact_iff (mount : s.blockBins ≠ [])
    (empty : s.blockBins.flatten = []) (run : Relation.ReflTransGen (MountStep power) s s') :
    RebuildsExactly power cnter bitmap initsize s' ↔
      Contained power cnter bitmap initsize s' := by
  obtain ⟨hb, hm⟩ := MountStep.run_marked run mount (by simp [Marked, empty])
  exact rebuildsExactly_iff hb hm

/-- The allocator as the mount sets it up, on a device whose pages all have clear marks. -/
def mounted : BinAlloc where
  blockStart := 0
  blockEnd := 0
  numFreeBlocks := 0
  unusedBlockLow := 0
  unusedBlockHigh := 0
  blockBins := [[], []]
  pageMarks := fun _ => {}

theorem wpmfsSetupBlocknodeMap_exact_mounted :
    RebuildsExactly 17 (fun _ => 0) (fun _ => true) 16384 mounted ↔
      Contained 17 (fun _ => 0) (fun _ => true) 16384 mounted :=
  wpmfsSetupBlocknodeMap_exact_iff (by decide) (by decide) .refl

/-- On a device of four blocks, all owned, the counter file's first four blocks end in a bin. -/
theorem wpmfsSetupBlocknodeMap_beyond :
    ¬RebuildsExactly 17 (fun _ => 0) (fun b => decide (b < 4)) 16384 mounted := by
  rw [rebuildsExactly_iff (by decide) (by simp [Marked, mounted])]
  intro h
  have := h.beyond 4 (by decide) (by decide) (by decide) (by decide)
  simp [mounted] at this

end Exact

end Wpmfs.Balloc
