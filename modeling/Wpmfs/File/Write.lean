import Wpmfs.File.Alloc
import Wpmfs.File.Xip

/-!
# What a write leaves in a file

The bytes that are written are those of the user, and the others are what they were, but for the
blocks that the allocation before the loop has added: those are not zeroed.
-/

namespace Wpmfs.File

open Spans

variable {f f' : File} {s s' : Env} {w : Write} {k n b x first last num done : ℕ}
  {mem : ℕ → ℕ → UInt8} {zero : Bool} {err : Option Error}

/-! ## Bytes -/

theorem WellFormed.find_inj {j : ℕ} (hf : f.WellFormed) (hk : pmfsFindDataBlock f k = some b)
    (hj : pmfsFindDataBlock f j = some b) : k = j := by
  rw [pmfsFindDataBlock_eq] at hk hj
  have hkh := lt_of_ptr (ne_of_eq_of_ne hk (Option.some_ne_none b))
  have hjh := lt_of_ptr (ne_of_eq_of_ne hj (Option.some_ne_none b))
  rw [ptr_of_lt hkh] at hk
  rw [ptr_of_lt hjh] at hj
  simpa using (Slot.ptr_inj hf.nodup hkh hjh hk hj).2

theorem contents_of_some (hb : pmfsFindDataBlock f (x / 4096) = some b) :
    contents f mem x = mem b (x % 4096) := by
  rw [contents, hb]

theorem contents_of_none (hb : pmfsFindDataBlock f (x / 4096) = none) : contents f mem x = 0 := by
  rw [contents, hb]

/-- A change of one block is a change of one page of the file. -/
theorem contents_update (hf : f.WellFormed) (hb : pmfsFindDataBlock f k = some b) (g : ℕ → UInt8) :
    contents f (Function.update mem b g) x =
      if x / 4096 = k then g (x % 4096) else contents f mem x := by
  split
  · rename_i hx
    subst hx
    rw [contents_of_some hb, Function.update_self]
  · rename_i hx
    rw [contents, contents]
    split
    · rename_i c hc
      have hcb : c ≠ b := by
        rintro rfl
        exact hx (hf.find_inj hc hb)
      rw [Function.update_of_ne hcb]
    · rfl

theorem contents_memcpyToNvmm {pos : ℕ} {src : ℕ → UInt8} (hf : f.WellFormed)
    (hb : pmfsFindDataBlock f (pos / 4096) = some b) (hn : pos % 4096 + n ≤ 4096) :
    contents f (memcpyToNvmm mem b (pos % 4096) n src) x =
      if pos ≤ x ∧ x < pos + n then src (x - pos) else contents f mem x := by
  rw [memcpyToNvmm, contents_update hf hb]
  by_cases hx : x / 4096 = pos / 4096
  · rw [if_pos hx]
    by_cases hin : pos ≤ x ∧ x < pos + n
    · rw [if_pos hin, if_pos (by omega)]
      congr 1
      omega
    · rw [if_neg hin, if_neg (by omega), contents_of_some (hx ▸ hb)]
  · rw [if_neg hx, if_neg (by omega)]

theorem contents_memsetNt {low high : ℕ} (hf : f.WellFormed) (hb : pmfsFindDataBlock f k = some b) :
    contents f (memsetNt mem b low high) x =
      if x / 4096 = k ∧ low ≤ x % 4096 ∧ x % 4096 < high then 0 else contents f mem x := by
  rw [memsetNt, contents_update hf hb]
  by_cases hx : x / 4096 = k
  · subst hx
    rw [if_pos rfl, contents_of_some hb]
    simp
  · rw [if_neg hx, if_neg (fun h => hx h.1)]

theorem contents_updateIsize (f : File) (n : ℕ) : contents (updateIsize f n) = contents f := by
  rw [updateIsize]
  split <;> rfl

/-! ## Allocations -/

/-- The allocator still gives blocks that are not in use. -/
def Sound (f : File) (s : Env) : Prop := f.WellFormed ∧ s.Gives (f.root.entries.map Prod.snd)

theorem Sound.withMem (hs : Sound f s) (mem : ℕ → ℕ → UInt8) : Sound f { s with mem := mem } :=
  ⟨hs.1, hs.2.inj, hs.2.fresh⟩

/-- An allocator that always gives: blocks from 100 on. -/
def plenty (mem : ℕ → ℕ → UInt8) : Env :=
  ⟨fun n => .ok (100 + 2 * n), fun n => .ok (101 + 2 * n), [], mem⟩

theorem plenty_gives {used : Multiset ℕ} (hused : ∀ b ∈ used, b < 100) : (plenty mem).Gives used := by
  constructor
  · rintro (i | i) (j | j) b hi hj <;> simp [Env.answer, plenty] at hi hj ⊢ <;> omega
  · intro r b hr
    have hb : 100 ≤ b := by rcases r with i | i <;> simp [Env.answer, plenty] at hr <;> omega
    exact ⟨by omega, fun hmem => Nat.not_lt.mpr hb (hused b hmem)⟩

/-- What an allocation leaves of a file and its blocks. -/
structure Allocated (f : File) (first last : ℕ) (zero : Bool) (s : Env) (err : Option Error)
    (f' : File) (s' : Env) : Prop where
  sound : Sound f' s'
  kept : ∀ k b, pmfsFindDataBlock f k = some b → pmfsFindDataBlock f' k = some b
  within : ∀ k, pmfsFindDataBlock f k = none → pmfsFindDataBlock f' k ≠ none →
    first ≤ k ∧ k ≤ last
  mem : ∀ k b, pmfsFindDataBlock f k = some b → s'.mem b = s.mem b
  zeroed : zero = true → ∀ k b, pmfsFindDataBlock f k = none → pmfsFindDataBlock f' k = some b →
    ∀ i, s'.mem b i = 0
  raw : zero = false → s'.mem = s.mem
  found : err = none → ∀ k, first ≤ k → k ≤ last → pmfsFindDataBlock f' k ≠ none
  stopped : err ≠ none → ∃ m, StoppedAt (pmfsFindDataBlock f) (pmfsFindDataBlock f') first last m
  iSize : f'.iSize = f.iSize
  iMode : f'.iMode = f.iMode

theorem Heap.Grows.mem_eq {s t : Heap} (hgrows : s.Grows false t) : t.mem = s.mem := by
  induction hgrows with
  | refl => rfl
  | tail _ hstep ih =>
    rw [← ih]
    cases hstep with
    | data =>
      rw [Heap.pmfsNewDataBlock]
      split <;> rfl
    | node =>
      rw [Heap.pmfsNewBlock]
      split <;> rfl
    | flag => rfl

theorem Added.allocated {r : Option Error × ((h : ℕ) × Slot h) × Heap} (hs : Sound f s)
    (hr : Added ⟨f.height, f.root⟩ first last zero (f.heap s) r) (hheight : r.2.1.1 ≤ 3) :
    Allocated f first last zero s r.1 (f.setTree r.2.1 r.2.2) r.2.2.toEnv := by
  obtain ⟨errval, t, s'⟩ := r
  obtain ⟨new, hnew, hentries, hwell⟩ := hr.gave hs.1 hs.2 hheight
  have hptr : ∀ k, pmfsFindDataBlock (f.setTree t s') k = treePtr t 0 k := pmfsFindDataBlock_eq _
  have hkept : ∀ k b, pmfsFindDataBlock f k = some b →
      pmfsFindDataBlock (f.setTree t s') k = some b := by
    intro k b hb
    rw [pmfsFindDataBlock_eq] at hb
    exact (hptr k).trans (hr.kept 0 k b hb)
  have hused : s'.Gives ((f.setTree t s').root.entries.map Prod.snd) := by
    have hmap : t.2.entries.map Prod.snd =
        (new.map Prod.snd : List ℕ) + f.root.entries.map Prod.snd := by
      rw [hentries, Multiset.map_add, Multiset.map_coe, add_comm]
    exact (show Env.Gives _ (t.2.entries.map Prod.snd) from hmap ▸ hnew.gives)
  refine ⟨⟨hwell, hused⟩, hkept, fun k hnone hptr' => ?_, fun k b hb => hnew.mem b ?_,
    fun hzero k b hnone hb => hnew.zeroed hzero b ?_, ?_, fun hok k hk hk' => ?_, fun herr => ?_,
    rfl, rfl⟩
  · rw [pmfsFindDataBlock_eq] at hnone
    rw [hptr] at hptr'
    rcases hr.meets 0 k hnone hptr' with ⟨hl, -⟩ | hmeets
    · exact absurd hl (Nat.not_lt_zero _)
    · exact meets_zero.mp hmeets
  · exact Slot.mem_map_of_mem (mem_entries_of_find hb)
  · have hmem : (0, b) ∈ t.2.entries := mem_entries_of_find hb
    rw [hentries] at hmem
    rcases Multiset.mem_add.mp hmem with hmem | hmem
    · obtain ⟨j, hj⟩ := mem_entries.mp hmem
      have hj := (pmfsFindDataBlock_eq f j).trans hj
      rw [hwell.find_inj hb (hkept j b hj), hj] at hnone
      cases hnone
    · exact Multiset.mem_coe.mp hmem
  · rintro rfl
    exact hr.grows.mem_eq
  · rw [hptr]
    exact hr.found hok k ⟨hk, hk'⟩
  · obtain ⟨m, hm⟩ := hr.stopped herr
    refine ⟨m, hm.le, fun k hk hkm => ?_, fun k hnone hptr' => hm.lt k ?_ ?_⟩
    · rw [hptr]
      exact hm.found k hk hkm
    · rw [pmfsFindDataBlock_eq] at hnone
      exact hnone
    · rwa [hptr] at hptr'

/-- What an allocation does, with an error or without. -/
theorem pmfsAllocBlocks_allocated (zero : Bool) (hs : Sound f s) (hnum : 0 < num) (blocknr : ℕ) :
    ∃ err f' s', pmfsAllocBlocks f blocknr num zero s = some (err, f', s') ∧
      Allocated f blocknr (blocknr + num - 1) zero s err f' s' := by
  rcases pmfsAllocBlocks_cases blocknr zero s hs.1.null hnum with h | h
  · refine ⟨_, _, _, h, hs, fun _ _ h => h, fun _ h h' => absurd h h', fun _ _ _ => rfl,
      fun _ _ _ h h' => ?_, fun _ => rfl, nofun, fun _ => ⟨blocknr, .start (by omega)⟩, rfl, rfl⟩
    rw [h] at h'
    cases h'
  · obtain ⟨r, h, hadded, hheight⟩ := h
    have := hs.1.height_le
    have := hadded.height
    exact ⟨_, _, _, h, hadded.allocated hs (by dsimp only at this; omega)⟩

/-- A zeroed block reads as the hole before. -/
theorem Allocated.contents_eq (h : Allocated f first last true s err f' s') :
    contents f' s'.mem x = contents f s.mem x := by
  cases hk : pmfsFindDataBlock f (x / 4096) with
  | some b => rw [contents_of_some hk, contents_of_some (h.kept _ _ hk), h.mem _ _ hk]
  | none =>
    rw [contents_of_none hk]
    cases hk' : pmfsFindDataBlock f' (x / 4096) with
    | some b => rw [contents_of_some hk', h.zeroed rfl _ _ hk hk']
    | none => rw [contents_of_none hk']

/-! ## The loop -/

/-- What `pmfs_get_xip_mem` leaves: the file reads as before. -/
structure Got (f : File) (k : ℕ) (s : Env) (r : Except Error ℕ) (f' : File) (s' : Env) : Prop where
  sound : Sound f' s'
  kept : ∀ j b, pmfsFindDataBlock f j = some b → pmfsFindDataBlock f' j = some b
  contents : ∀ x, contents f' s'.mem x = contents f s.mem x
  found : ∀ b, r = .ok b → pmfsFindDataBlock f' k = some b
  here : pmfsFindDataBlock f k ≠ none → ∃ b, r = .ok b
  iSize : f'.iSize = f.iSize
  iMode : f'.iMode = f.iMode

theorem pmfsGetXipMem_got (hs : Sound f s) (k : ℕ) :
    ∃ r f' s', pmfsGetXipMem true f k s = some (r, f', s') ∧ Got f k s r f' s' := by
  rw [pmfsGetXipMem]
  cases hk : pmfsFindDataBlock f k with
  | some b =>
    exact ⟨_, _, _, rfl, hs, fun _ _ h => h, fun _ => rfl, fun c hc => by cases hc; exact hk,
      fun _ => ⟨b, rfl⟩, rfl, rfl⟩
  | none =>
    obtain ⟨err, f', s', h, hall⟩ := pmfsAllocBlocks_allocated true hs Nat.one_pos k
    dsimp only
    rw [if_pos rfl, h, Option.map_some]
    have hgot : ∀ r, (∀ b, r = Except.ok b → pmfsFindDataBlock f' k = some b) →
        Got f k s r f' s' := fun r hr =>
      ⟨hall.sound, hall.kept, fun _ => hall.contents_eq, hr, fun h => absurd hk h, hall.iSize,
        hall.iMode⟩
    cases err with
    | some e => exact ⟨_, _, _, rfl, hgot _ nofun⟩
    | none =>
      obtain ⟨b, hb⟩ := Option.ne_none_iff_exists'.mp (hall.found rfl k le_rfl (by omega))
      dsimp only
      rw [hb]
      exact ⟨_, _, _, rfl, hgot _ fun c hc => by cases hc; exact hb⟩

/-- What the loop of a write leaves, from `done` bytes on. Where there are blocks up to `m`, it
comes to the end of them, or of the bytes. -/
structure Looped (w : Write) (f : File) (s : Env) (done written : ℕ) (f' : File) (s' : Env) :
    Prop where
  sound : Sound f' s'
  ge : done ≤ written
  le : written ≤ min w.count (max done w.readable)
  contents : ∀ x, contents f' s'.mem x =
    if w.pos + done ≤ x ∧ x < w.pos + written then w.buf (x - w.pos) else contents f s.mem x
  reach : ∀ m, (∀ k, (w.pos + done) / 4096 ≤ k → k < m → pmfsFindDataBlock f k ≠ none) →
    min (min w.count w.readable) (4096 * m - w.pos) ≤ written
  iSize : f'.iSize = f.iSize
  iMode : f'.iMode = f.iMode

theorem xipWriteLoop_looped (hs : Sound f s) (hdone : done < w.count)
    (hn : w.pos + w.count ≤ ((w.pos + done) / 4096 + n) * 4096) :
    ∃ status written f' s', xipWriteLoop w n done f s = some (status, written, f', s') ∧
      Looped w f s done written f' s' := by
  induction n generalizing f s done with
  | zero => omega
  | succ n ih =>
    obtain ⟨r, f₁, s₁, hget, hgot⟩ := pmfsGetXipMem_got hs ((w.pos + done) / 4096)
    rw [xipWriteLoop]
    dsimp only
    rw [hget, Option.bind_some]
    cases r with
    | error e =>
      refine ⟨_, _, _, _, rfl, hgot.sound, le_rfl, by omega, fun x => ?_, fun m hm => ?_, hgot.iSize,
        hgot.iMode⟩
      · rw [if_neg (by omega), hgot.contents]
      · have hle : m ≤ (w.pos + done) / 4096 := by
          by_contra hlt
          obtain ⟨b, hb⟩ := hgot.here (hm _ le_rfl (by omega))
          cases hb
        omega
    | ok b =>
      dsimp only
      generalize hbytes : min (4096 - (w.pos + done) % 4096) (w.count - done) = bytes
      generalize hcopied : w.copied done bytes = copied
      rw [Write.copied] at hcopied
      have hmem : ∀ x, File.contents f₁ (memcpyToNvmm s₁.mem b ((w.pos + done) % 4096) copied
          fun i => w.buf (done + i)) x = if w.pos + done ≤ x ∧ x < w.pos + (done + copied)
            then w.buf (x - w.pos) else File.contents f s.mem x := by
        intro x
        rw [contents_memcpyToNvmm hgot.sound.1 (hgot.found b rfl) (by omega), hgot.contents,
          Nat.add_assoc]
        split
        · congr 1
          omega
        · rfl
      have hsound := hgot.sound.withMem (memcpyToNvmm s₁.mem b ((w.pos + done) % 4096) copied
        fun i => w.buf (done + i))
      split
      · exact ⟨_, _, _, _, rfl, hsound, by omega, by omega, hmem, fun m hm => by omega, hgot.iSize,
          hgot.iMode⟩
      · split
        · have hnext : (w.pos + (done + copied)) / 4096 = (w.pos + done) / 4096 + 1 := by
            rw [← Nat.add_div_right _ (show 0 < 4096 by decide)]
            have hfull : (w.pos + done) % 4096 + copied = 4096 := by omega
            omega
          obtain ⟨status, written, f', s', hrun, hloop⟩ := ih hsound (by omega)
            (by rwa [hnext, Nat.add_assoc, Nat.add_comm 1])
          refine ⟨status, written, f', s', hrun, hloop.sound, by have := hloop.ge; omega,
            by have := hloop.le; omega, fun x => ?_, fun m hm => ?_,
            hloop.iSize.trans hgot.iSize, hloop.iMode.trans hgot.iMode⟩
          · have := hloop.ge
            rw [hloop.contents]
            dsimp only
            rw [hmem]
            grind
          · refine hloop.reach m fun k hk hkm hnone => ?_
            obtain ⟨c, hc⟩ := Option.ne_none_iff_exists'.mp (hm k (by omega) hkm)
            rw [hgot.kept k c hc] at hnone
            cases hnone
        · exact ⟨_, _, _, _, rfl, hsound, by omega, by omega, hmem, fun m hm => by omega, hgot.iSize,
            hgot.iMode⟩

end Wpmfs.File
