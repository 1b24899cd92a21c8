import Wpmfs.Journal.Sweep
import Mathlib.Algebra.Order.Ring.Int
import Mathlib.Algebra.Order.Ring.Nat
import Mathlib.Data.List.TakeWhile

/-!
# Well-formed journals and their first unfinished transaction

A well-formed journal is a sequence of regions, of transactions finished or not. A cleaning pass
gets to the first unfinished transaction with a written entry; `survey` reads off the regions
where that is and what the pass counts, and `WellFormed.front` says that the pass agrees.
-/

namespace Wpmfs.Journal

open Persist

/-- The region holds the entries of a transaction that has not finished. -/
def Region.blocks (r : Region) : Bool := !r.finished && decide (0 < r.used)

/-- The number of entries written in the regions. -/
def entries (rs : List Region) : Nat := (rs.map Region.used).sum

/-- The first region with a written entry starts here. -/
def nextStart (rs : List Region) (stop : Nat) : Nat :=
  ((rs.find? fun r => decide (0 < r.used)).map Region.start).getD stop

section

variable {sbi : SbInfo} {area area' : Nat → LogEntry} {genId : UInt16} {a b c e n tail : Nat}
  {r : Region} {rs : List Region}

theorem Region.Written.ended (h : r.Written genId area) (hfin : r.finished = true)
    (hpos : 0 < r.used) : Ended area genId r.start r.used := by
  refine ⟨hpos, h.used_lt, h.gen, h.isStart, fun i hi => ?_⟩
  rw [h.isFinish i hi, hfin, Bool.true_and]

/-- A pass moves over a region that does not block it. -/
theorem Swept.region (h : r.Written genId area) (hb : r.blocks = false) :
    Swept area genId r.start (r.start + 64 * r.len) r.used := by
  have hle := h.used_le
  have hstale : Swept area genId (r.start + 64 * r.used)
      (r.start + 64 * r.used + 64 * (r.len - r.used)) 0 := by
    refine Swept.unusedRun fun i hi => ?_
    have := h.stale (r.used + i) (by omega) (by omega)
    rwa [Nat.mul_add, ← Nat.add_assoc] at this
  rw [show r.start + 64 * r.used + 64 * (r.len - r.used) = r.start + 64 * r.len by omega]
    at hstale
  by_cases hz : r.used = 0
  · rw [hz, Nat.mul_zero, Nat.add_zero] at hstale
    rwa [hz]
  · have hfin : r.finished = true := by
      simpa [Region.blocks, Nat.pos_of_ne_zero hz] using hb
    exact .ended (h.ended hfin (Nat.pos_of_ne_zero hz)) hstale

theorem Swept.chain (hc : Chain Region.start Region.len rs a b)
    (hw : ∀ r ∈ rs, r.Written genId area) (hb : ∀ r ∈ rs, r.blocks = false) :
    Swept area genId a b (entries rs) := by
  induction rs generalizing a with
  | nil => exact (show a = b from hc) ▸ .nil
  | cons r rs ih =>
    obtain ⟨rfl, hc⟩ := hc
    have hr := Swept.region (hw r List.mem_cons_self) (hb r List.mem_cons_self)
    have hrs := ih hc (fun q hq => hw q (List.mem_cons_of_mem _ hq))
      (fun q hq => hb q (List.mem_cons_of_mem _ hq))
    simpa [entries] using hr.append hrs

/-- Slots that hold no entry of the generation. -/
def Unused (area : Nat → LogEntry) (genId : UInt16) (a b : Nat) : Prop :=
  ∀ le, a ≤ le → le < b → 64 ∣ le → (area le).genId ≠ genId

theorem unused_self : Unused area genId a a := fun _ _ _ => by omega

theorem Swept.ofUnused (h : Unused area genId a b) (ha : 64 ∣ a) (hb : 64 ∣ b) (hab : a ≤ b) :
    Swept area genId a b 0 := by
  have hs : Swept area genId a (a + 64 * ((b - a) / 64)) 0 :=
    Swept.unusedRun fun i hi => h (a + 64 * i) (by omega) (by omega) (by omega)
  rwa [show a + 64 * ((b - a) / 64) = b by omega] at hs

/-- The walk of the transaction in the first region gets from its start record to the next one,
or to the end of the stretch. -/
structure Stalls (area : Nat → LogEntry) (genId : UInt16) (a e stop : Nat) : Prop where
  lt : a < e
  le : e ≤ stop
  dvd : 64 ∣ e
  starts : (area a).Starts genId
  finish : ∀ le, a ≤ le → le < e → 64 ∣ le → ¬(area le).Finishes genId
  start : ∀ le, a < le → le < e → 64 ∣ le → ¬(area le).Starts genId
  next : e = stop ∨ (area e).Starts genId

theorem slot_of_region (h : r.start ≤ a) (h' : a < r.start + 64 * r.len) (hd : 64 ∣ r.start)
    (ha : 64 ∣ a) : ∃ i < r.len, a = r.start + 64 * i :=
  ⟨(a - r.start) / 64, by omega, by omega⟩

/-- Regions without a written entry hold no entry of the generation, up to the next start. -/
theorem unused_nextStart {stop : Nat} (hc : Chain Region.start Region.len rs a c)
    (hw : ∀ r ∈ rs, r.Written genId area) (hu : Unused area genId c stop) (hcs : c ≤ stop)
    (ha : 64 ∣ a) (hs : 64 ∣ stop) :
    a ≤ nextStart rs stop ∧ nextStart rs stop ≤ stop ∧ 64 ∣ nextStart rs stop ∧
      Unused area genId a (nextStart rs stop) ∧
      (nextStart rs stop = stop ∨ (area (nextStart rs stop)).Starts genId) := by
  induction rs generalizing a with
  | nil =>
    obtain rfl : a = c := hc
    exact ⟨hcs, le_refl _, hs, hu, .inl rfl⟩
  | cons r rs ih =>
    obtain ⟨rfl, hc⟩ := hc
    have hr := hw r List.mem_cons_self
    have hle := hc.le
    by_cases hpos : 0 < r.used
    · have hn : nextStart (r :: rs) stop = r.start := by simp [nextStart, hpos]
      rw [hn]
      exact ⟨le_refl _, by omega, ha, fun le h1 h2 => by omega,
        .inr ⟨hr.gen 0 hpos, by simpa using hr.isStart 0 hpos⟩⟩
    · have hn : nextStart (r :: rs) stop = nextStart rs stop := by simp [nextStart, hpos]
      obtain ⟨h1, h2, h3, h4, h5⟩ := ih hc (fun q hq => hw q (List.mem_cons_of_mem _ hq)) (by omega)
      rw [hn]
      refine ⟨by omega, h2, h3, fun le hl1 hl2 hd => ?_, h5⟩
      by_cases hlt : le < r.start + 64 * r.len
      · obtain ⟨i, hi, rfl⟩ := slot_of_region hl1 hlt ha hd
        exact hr.stale i (by omega) hi
      · exact h4 le (by omega) hl2 hd

theorem stalls_of_blocks {stop : Nat} (hc : Chain Region.start Region.len (r :: rs) a c)
    (hw : ∀ q ∈ r :: rs, q.Written genId area) (hb : r.blocks = true)
    (hu : Unused area genId c stop) (hcs : c ≤ stop) (ha : 64 ∣ a) (hs : 64 ∣ stop) :
    Stalls area genId a (nextStart rs stop) stop := by
  obtain ⟨rfl, hc⟩ := hc
  have hr := hw r List.mem_cons_self
  obtain ⟨hfin, hpos⟩ : r.finished = false ∧ 0 < r.used := by simpa [Region.blocks] using hb
  have hlen := hr.used_le
  obtain ⟨h1, h2, h3, h4, h5⟩ := unused_nextStart hc (fun q hq => hw q (List.mem_cons_of_mem _ hq))
    hu hcs (by omega) hs
  refine ⟨by omega, h2, h3, ⟨hr.gen 0 hpos, by simpa using hr.isStart 0 hpos⟩,
    fun le hl1 hl2 hd hf => ?_, fun le hl1 hl2 hd hst => ?_, h5⟩
  · by_cases hlt : le < r.start + 64 * r.len
    · obtain ⟨i, hi, rfl⟩ := slot_of_region hl1 hlt ha hd
      by_cases hiu : i < r.used
      · have := hf.2
        rw [hr.isFinish i hiu, hfin] at this
        simp at this
      · exact hr.stale i (by omega) hi hf.1
    · exact h4 le (by omega) hl2 hd hf.1
  · by_cases hlt : le < r.start + 64 * r.len
    · obtain ⟨i, hi, rfl⟩ := slot_of_region (by omega) hlt ha hd
      by_cases hiu : i < r.used
      · have := hst.2
        rw [hr.isStart i hiu, decide_eq_true_iff] at this
        omega
      · exact hr.stale i (by omega) hi hst.1
    · exact h4 le (by omega) hl2 hd hst.1

/-- The walk looks the same in an area that differs in unused slots only. -/
theorem Stalls.congr {stop : Nat} (h : Stalls area genId a e stop) (hac : a < c)
    (harea : ∀ le, a ≤ le → le < c → area' le = area le) (hu : Unused area genId c stop)
    (hu' : Unused area' genId c stop) : Stalls area' genId a e stop := by
  have hle := h.le
  refine ⟨h.lt, hle, h.dvd, harea a (le_refl _) hac ▸ h.starts, fun le h1 h2 hd hf => ?_,
    fun le h1 h2 hd hs => ?_, ?_⟩
  · rcases Nat.lt_or_ge le c with hc | hc
    · exact h.finish le h1 h2 hd (harea le h1 hc ▸ hf)
    · exact hu' le hc (by omega) hd hf.1
  · rcases Nat.lt_or_ge le c with hc | hc
    · exact h.start le h1 h2 hd (harea le (by omega) hc ▸ hs)
    · exact hu' le hc (by omega) hd hs.1
  · rcases Nat.lt_or_ge e stop with hes | hes
    · refine h.next.imp_right fun hs => ?_
      rcases Nat.lt_or_ge e c with hc | hc
      · exact harea e h.lt.le hc ▸ hs
      · exact absurd hs.1 (hu e hc hes h.dvd)
    · exact .inl (by omega)

theorem Stalls.next_offset {stop : Nat} (h : Stalls area genId a e stop)
    (hs : stop ≤ sbi.jsize) (htail : sbi.offset stop = tail) :
    sbi.offset e = tail ∨ (area (sbi.offset e)).Starts genId := by
  have hle := h.le
  rcases h.next with rfl | hn
  · exact .inl htail
  · rcases Nat.lt_or_ge e stop with hlt | hge
    · rw [offset_of_lt (show e < sbi.jsize by omega)]
      exact .inr hn
    · obtain rfl : e = stop := by omega
      exact .inl htail

/-- The pass stops at the transaction whose walk meets the tail or the next start record. -/
theorem Stalls.halts {stop : Nat} (h : Stalls area genId a e stop) (ha : 64 ∣ a)
    (hend : e ≤ sbi.jsize) (hnot : tail ≤ a ∨ e ≤ tail) (hne : a ≠ tail)
    (hnext : sbi.offset e = tail ∨ (area (sbi.offset e)).Starts genId) :
    Halts sbi area genId tail a ((e - a) / 64) := by
  have hlt := h.lt
  have hle := h.le
  have hdvd := h.dvd
  obtain ⟨k, hk⟩ : ∃ k, e = a + 64 * k + 64 := ⟨(e - a) / 64 - 1, by omega⟩
  have hquiet : Quiet area genId tail a (a + 64 * k) :=
    ⟨fun le h1 h2 => h.finish le h1 (by omega), fun le h1 h2 => h.start le h1 (by omega),
      fun le h1 h2 => by omega⟩
  have hfuel : sbi.slots + 1 = sbi.slots - k + 1 + k := by
    unfold SbInfo.slots
    omega
  refine .inr ⟨hne, h.starts, sbi.offset e, ?_⟩
  have hstep : nextLogEntry sbi.jsize (a + 64 * k) = sbi.offset e := by
    rw [nextLogEntry_eq (by omega), hk]
  rw [hfuel, processWalk_quiet hquiet ha (by omega),
    processWalk_stops (h.finish _ (by omega) (by omega) (by omega)) (by rwa [hstep]), hstep,
    show 0 + k + 1 = (e - a) / 64 by omega]

/-- The walk of the last transaction before a wraparound goes on to the tail. -/
theorem Stalls.halts_wrapped (h : Stalls area genId a sbi.jsize sbi.jsize) (ha : 64 ∣ a)
    (hu : Unused area genId 0 tail) (htail : 64 ∣ tail) (hlt : tail < a) :
    Halts sbi area genId tail a ((sbi.jsize - a) / 64 + tail / 64) := by
  have hsize := h.dvd
  have hajs := h.lt
  by_cases hz : tail = 0
  · subst hz
    simpa using h.halts ha (le_refl _) (.inl (by omega)) (by omega) (.inl (if_pos rfl))
  obtain ⟨k, hk⟩ : ∃ k, sbi.jsize = a + 64 * k + 64 := ⟨(sbi.jsize - a) / 64 - 1, by omega⟩
  obtain ⟨m, hm⟩ : ∃ m, tail = 64 * m + 64 := ⟨tail / 64 - 1, by omega⟩
  have hquiet : Quiet area genId tail a (a + 64 * k) :=
    ⟨fun le h1 h2 => h.finish le h1 (by omega), fun le h1 h2 => h.start le h1 (by omega),
      fun le h1 h2 => by omega⟩
  have hquiet' : Quiet area genId tail 0 (0 + 64 * m) :=
    ⟨fun le h1 h2 hd hf => hu le h1 (by omega) hd hf.1,
      fun le h1 h2 hd hs => hu le (by omega) (by omega) hd hs.1, fun le h1 h2 => by omega⟩
  have hfuel : sbi.slots + 1 = sbi.slots - k - m - 1 + 1 + m + 1 + k := by
    unfold SbInfo.slots
    omega
  have hnext : nextLogEntry sbi.jsize (a + 64 * k) = 0 := by
    rw [nextLogEntry_eq (by omega), SbInfo.offset, if_pos (by omega)]
  have hnext' : nextLogEntry sbi.jsize (0 + 64 * m) = tail := by
    rw [nextLogEntry_eq (by omega), offset_of_lt (by omega)]
    omega
  refine .inr ⟨by omega, h.starts, tail, ?_⟩
  rw [hfuel, processWalk_quiet hquiet ha (by omega),
    processWalk_succ (h.finish _ (by omega) (by omega) (by omega)) (by rw [hnext]; omega)
      (by rw [hnext]; exact fun hs => hu 0 (le_refl _) (by omega) (Nat.dvd_zero _) hs.1),
    hnext, processWalk_quiet hquiet' (Nat.dvd_zero _) (by omega),
    processWalk_stops (fun hf => hu _ (by omega) (by omega) (by omega) hf.1) (.inl hnext'), hnext']
  congr 2
  omega

/-- The regions a pass moves over, and those from the first one that blocks it on. -/
def freed (rs : List Region) : List Region := rs.takeWhile fun r => !r.blocks

def remaining (rs : List Region) : List Region := rs.dropWhile fun r => !r.blocks

theorem freed_append_remaining (rs : List Region) : freed rs ++ remaining rs = rs :=
  List.takeWhile_append_dropWhile

theorem blocks_of_mem_freed (h : r ∈ freed rs) : r.blocks = false := by
  simpa using List.mem_takeWhile_imp h

theorem blocks_of_remaining {post : List Region} (h : remaining rs = r :: post) :
    r.blocks = true := by
  have := List.head?_dropWhile_not (fun r : Region => !r.blocks) rs
  rw [show rs.dropWhile (fun r => !r.blocks) = r :: post from h] at this
  simpa using this

theorem freed_of_remaining (h : remaining rs = []) : freed rs = rs := by
  simpa [h] using freed_append_remaining rs

/-- A stretch of regions none of which blocks the pass. -/
theorem swept_of_remaining_nil {stop : Nat} (hc : Chain Region.start Region.len rs a c)
    (hw : ∀ r ∈ rs, r.Written genId area) (hu : Unused area genId c stop) (hcs : c ≤ stop)
    (ha : 64 ∣ a) (hs : 64 ∣ stop) (hr : remaining rs = []) :
    Swept area genId a stop (entries rs) := by
  have hfree := Swept.chain hc hw fun r hrs =>
    blocks_of_mem_freed ((freed_of_remaining hr).symm ▸ hrs)
  have hgap := Swept.ofUnused hu (hc.dvd_end ha) hs hcs
  simpa using hfree.append hgap

/-- A stretch of regions one of which blocks the pass. -/
theorem swept_of_remaining_cons {stop : Nat} {post : List Region}
    (hc : Chain Region.start Region.len rs a c) (hw : ∀ r ∈ rs, r.Written genId area)
    (hu : Unused area genId c stop) (hcs : c ≤ stop) (ha : 64 ∣ a) (hs : 64 ∣ stop)
    (hr : remaining rs = r :: post) :
    Swept area genId a r.start (entries (freed rs)) ∧
      Stalls area genId r.start (nextStart post stop) stop ∧ r.start < c := by
  have hsplit := freed_append_remaining rs
  rw [hr] at hsplit
  rw [← hsplit] at hc
  obtain ⟨b, hfree, hrest⟩ := chain_append.1 hc
  obtain rfl : r.start = b := hrest.1
  have hb := blocks_of_remaining hr
  have hwr : ∀ q ∈ r :: post, q.Written genId area :=
    fun q hq => hw q (hsplit ▸ List.mem_append_right _ hq)
  have hst := stalls_of_blocks hrest hwr hb hu hcs (hfree.dvd_end ha) hs
  refine ⟨Swept.chain hfree (fun q hq => hw q (hsplit ▸ List.mem_append_left _ hq))
    (fun q hq => blocks_of_mem_freed hq), hst, ?_⟩
  have hle := (hrest.bounds List.mem_cons_self).2
  have hused := (hwr r List.mem_cons_self).used_le
  have hpos : 0 < r.used := by
    have : r.finished = false ∧ 0 < r.used := by simpa [Region.blocks] using hb
    exact this.2
  omega

end

/-- A journal whose entries are those of the regions `older`, of the generation before the last
wraparound, and `newer`, of the current one; no other slot of the area holds an entry a walk
could take for one of them. -/
inductive WellFormed (sbi : SbInfo) (s : Image) : (older newer : List Region) → Prop where
  | straight {newer : List Region} : s.head ≤ s.tail →
      Chain Region.start Region.len newer s.head s.tail →
      (∀ r ∈ newer, r.Written s.genId s.area) → Unused s.area s.genId s.tail sbi.jsize →
      WellFormed sbi s [] newer
  | wrapped {older newer : List Region} {stop : Nat} : s.tail < s.head →
      Chain Region.start Region.len older s.head stop → stop ≤ sbi.jsize →
      (∀ r ∈ older, r.Written (prevGenId s.genId) s.area) →
      Unused s.area (prevGenId s.genId) stop sbi.jsize →
      Chain Region.start Region.len newer 0 s.tail →
      (∀ r ∈ newer, r.Written s.genId s.area) → Unused s.area s.genId s.tail sbi.jsize →
      Unused s.area (prevGenId s.genId) 0 s.tail →
      WellFormed sbi s older newer

/-- What a pass over the regions comes to. -/
structure Survey where
  /-- Where the first unfinished transaction with a written entry starts; else the tail. -/
  head : Nat
  /-- The entries of the finished transactions before it. -/
  counted : Nat
  /-- The entries the walk of that transaction counts; 0 without one. -/
  blocking : Nat
  /-- The entries it counts once the tail is 0, if the transaction is of the current
  generation. -/
  blockingAtEnd : Nat

def survey (sbi : SbInfo) (s : Image) (older newer : List Region) : Survey :=
  match remaining older with
  | r :: post =>
    let e := nextStart post sbi.jsize
    { head := r.start
      counted := entries (freed older)
      blocking := (e - r.start) / 64 + if e = sbi.jsize then s.tail / 64 else 0
      blockingAtEnd := 0 }
  | [] =>
    match remaining newer with
    | r :: post =>
      { head := r.start
        counted := entries older + entries (freed newer)
        blocking := (nextStart post s.tail - r.start) / 64
        blockingAtEnd := (nextStart post sbi.jsize - r.start) / 64 }
    | [] =>
      { head := s.tail, counted := entries older + entries newer, blocking := 0
        blockingAtEnd := 0 }

section

variable {sbi : SbInfo} {s : Image} {newer older : List Region}

/-- The image once the tail has been set to 0. -/
def Image.restarted (s : Image) : Image := { s with tail := 0, genId := nextGenId s.genId }

/-- The cleaning passes of a reservation do what the survey says. -/
structure Surveyed (sbi : SbInfo) (s : Image) (f : Survey) : Prop where
  straight : s.head ≤ s.tail → s.head ≤ f.head ∧ f.head ≤ s.tail
  wrapped : s.tail < s.head → s.head ≤ f.head ∧ f.head < sbi.jsize ∨ f.head ≤ s.tail
  blocking : 64 * (f.counted + f.blocking) ≤ if s.head ≤ s.tail then s.tail - s.head
    else sbi.jsize - s.head + s.tail
  blockingAtEnd : 64 * f.blockingAtEnd ≤ sbi.jsize - f.head
  counted : s.head ≤ s.tail → 64 * f.counted ≤ f.head - s.head
  blocking_pos : 0 < f.blocking ↔ f.head ≠ s.tail
  /-- The passes from `s` on, and the passes after them when the tail is then set to 0. -/
  front : ∃ area', Front sbi s f.head area' f.counted f.blocking ∧
    ∃ h area'', Front sbi { s with head := f.head, area := area' }.restarted h area'' 0
        (if 0 < f.head ∧ f.head < s.tail then f.blockingAtEnd else 0) ∧
      (0 < f.head → f.head < s.tail → h = f.head)
  /-- The passes when the tail is set to 0 first. -/
  restart : s.head ≤ s.tail → 0 < s.head → ∃ area',
    Front sbi s.restarted (if f.head < s.tail then f.head else 0) area' f.counted
      (if f.head < s.tail then f.blockingAtEnd else 0)

theorem Unused.passed {area : Nat → LogEntry} {genId g : UInt16} {a b c k : Nat}
    (h : Unused area genId a b) (hg : genId ≠ 0) : Unused (passed g area c k) genId a b := by
  intro le h1 h2 hd he
  unfold Journal.passed at he
  split at he
  · rcases clearGenIds_genId area c k le with hc | hc
    · exact h le h1 h2 hd (hc ▸ he)
    · exact hg (he ▸ hc)
  · exact h le h1 h2 hd he

theorem front_restarted_free {n : Nat} (hg : s.genId ≠ 0) (hz : s.head = 0 → n = 0)
    (hsw : 0 < s.head → Swept s.area s.genId s.head sbi.jsize n) :
    ∃ area', Front sbi s.restarted 0 area' n 0 := by
  rcases Nat.eq_zero_or_pos s.head with h | h
  · obtain rfl := hz h
    have hnil : Swept s.area (nextGenId s.genId) s.head 0 0 := by
      rw [h]
      exact .nil
    exact ⟨_, .straight (s := s.restarted) (by rw [Image.restarted, h]) hnil (le_refl _)
      (.inl ⟨rfl, rfl⟩)⟩
  · have hsw' : Swept s.restarted.area (prevGenId s.restarted.genId) s.head sbi.jsize n := by
      rw [Image.restarted, prevGenId_nextGenId hg]
      exact hsw h
    exact ⟨_, .newer (s := s.restarted) h hsw' .nil (le_refl _) (.inl ⟨rfl, rfl⟩)⟩

theorem front_restarted_blocked {h n b : Nat} (hg : s.genId ≠ 0) (hpos : 0 < s.head)
    (hsw : Swept s.area s.genId s.head h n) (hh : h < sbi.jsize)
    (hhalt : Halts sbi s.area s.genId 0 h b) : ∃ area', Front sbi s.restarted h area' n b := by
  have hprev : prevGenId s.restarted.genId = s.genId := prevGenId_nextGenId hg
  have hsw' : Swept s.restarted.area (prevGenId s.restarted.genId) s.restarted.head h n :=
    hprev.symm ▸ hsw
  have hhalt' : Halts sbi s.restarted.area (prevGenId s.restarted.genId) s.restarted.tail h b :=
    hprev.symm ▸ hhalt
  exact ⟨_, .older (s := s.restarted) hpos hsw' hh hhalt'⟩

theorem surveyed_straight (hs : Shape sbi s) (hle : s.head ≤ s.tail)
    (hc : Chain Region.start Region.len newer s.head s.tail)
    (hw : ∀ r ∈ newer, r.Written s.genId s.area)
    (hu : Unused s.area s.genId s.tail sbi.jsize) :
    Surveyed sbi s (survey sbi s [] newer) := by
  obtain ⟨hsize, hsize', hdh, hdt, hhead, htail, hgen⟩ := hs
  have hnil : remaining [] = [] := rfl
  cases hr : remaining newer with
  | nil =>
    have hf : survey sbi s [] newer = ⟨s.tail, entries newer, 0, 0⟩ := by
      simp [survey, hnil, hr, entries]
    have hfree := swept_of_remaining_nil hc hw hu (by omega) hdh hsize hr
    have hfree' := swept_of_remaining_nil hc hw (unused_self : Unused _ _ s.tail s.tail)
      (le_refl _) hdh hdt hr
    have hcount := hfree'.le
    rw [hf]
    refine ⟨fun _ => ⟨hle, le_refl _⟩, fun _ => by omega, ?_, by simp, fun _ => hcount.2, by simp,
      ⟨_, .straight hle hfree' (le_refl _) (.inl ⟨rfl, rfl⟩), ?_⟩, fun _ hpos => ?_⟩
    · rw [if_pos hle]
      exact hcount.2
    · rw [if_neg (by dsimp only; omega)]
      have hfree₀ : Swept (passed s.genId s.area s.head ((s.tail - s.head) / 64)) s.genId s.tail
          sbi.jsize 0 := Swept.ofUnused (hu.passed hgen) hdt hsize htail.le
      obtain ⟨area'', hfr⟩ := front_restarted_free (s := { s with
        head := s.tail
        area := passed s.genId s.area s.head ((s.tail - s.head) / 64) }) hgen (fun _ => rfl)
        fun _ => hfree₀
      exact ⟨0, area'', hfr, fun _ h => by dsimp only at h; omega⟩
    · dsimp only
      rw [if_neg (by omega), if_neg (by omega)]
      exact front_restarted_free hgen (fun h => by omega) fun _ => hfree
  | cons x post =>
    have hf : survey sbi s [] newer = ⟨x.start, entries (freed newer),
        (nextStart post s.tail - x.start) / 64, (nextStart post sbi.jsize - x.start) / 64⟩ := by
      simp [survey, hnil, hr, entries]
    obtain ⟨hsw, hst, hlt⟩ := swept_of_remaining_cons hc hw
      (unused_self : Unused _ _ s.tail s.tail) (le_refl _) hdh hdt hr
    obtain ⟨-, hst', -⟩ := swept_of_remaining_cons hc hw hu (by omega) hdh hsize hr
    have hcount := hsw.le
    have hdvd := hsw.dvd hdh
    have hb := hst.le
    have hb' := hst'.le
    have hpos := hst.lt
    have hpos' := hst'.lt
    have hd := hst.dvd
    have hhalt : Halts sbi s.area s.genId s.tail x.start _ :=
      hst.halts hdvd (by omega) (.inr hb) (by omega)
        (hst.next_offset htail.le (offset_of_lt htail))
    have hhalt' : 0 < x.start → Halts sbi s.area s.genId 0 x.start _ := fun h =>
      hst'.halts hdvd hb' (.inl (Nat.zero_le _)) (by omega)
        (hst'.next_offset (le_refl _) (if_pos rfl))
    rw [hf]
    refine ⟨fun _ => ⟨hcount.1, by dsimp only; omega⟩, fun _ => by omega, ?_, by dsimp only; omega,
      fun _ => hcount.2, ?_, ⟨_, .straight hle hsw (by dsimp only; omega) hhalt, ?_⟩,
      fun _ hpos => ?_⟩
    · rw [if_pos hle]
      dsimp only
      omega
    · dsimp only
      omega
    · by_cases hz : 0 < x.start
      · -- the pass after the restart stops at the same transaction
        have hhalt₁ : Halts sbi (passed s.genId s.area s.head ((x.start - s.head) / 64)) s.genId 0
            x.start ((nextStart post sbi.jsize - x.start) / 64) := by
          refine (hhalt' hz).congr {le | x.start ≤ le ∧ le < sbi.jsize ∧ 64 ∣ le} ?_ ?_
            fun _ => ⟨le_refl _, by omega, hdvd⟩
          · rintro le ⟨h1, h2, h3⟩
            rw [nextLogEntry_eq (by omega), SbInfo.offset]
            split
            · exact .inl rfl
            · exact .inr ⟨by omega, by omega, by omega⟩
          · rintro le ⟨h1, h2, h3⟩
            exact (passed_of_notMem (.inr (by omega))).symm
        obtain ⟨area'', hfr⟩ := front_restarted_blocked (s := { s with
          head := x.start
          area := passed s.genId s.area s.head ((x.start - s.head) / 64) }) hgen hz .nil
          (show x.start < sbi.jsize by omega) hhalt₁
        rw [if_pos ⟨hz, hlt⟩]
        exact ⟨x.start, area'', hfr, fun _ _ => rfl⟩
      · rw [if_neg fun h => hz h.1]
        obtain ⟨area'', hfr⟩ := front_restarted_free (s := { s with
          head := x.start
          area := passed s.genId s.area s.head ((x.start - s.head) / 64) }) hgen (fun _ => rfl)
          fun h => absurd h hz
        exact ⟨0, area'', hfr, fun h => absurd h hz⟩
    · dsimp only
      rw [if_pos hlt, if_pos hlt]
      exact front_restarted_blocked hgen hpos hsw (by omega) (hhalt' (by omega))

/-- A pass that stops before the end of the area, at a transaction of the older generation. -/
theorem surveyed_older {stop : Nat} {x : Region} {post : List Region} (hs : Shape sbi s)
    (hlt : s.tail < s.head) (hc : Chain Region.start Region.len older s.head stop)
    (hstop : stop ≤ sbi.jsize) (hw : ∀ r ∈ older, r.Written (prevGenId s.genId) s.area)
    (hu : Unused s.area (prevGenId s.genId) stop sbi.jsize)
    (hcur : Unused s.area s.genId s.tail sbi.jsize)
    (hlow : Unused s.area (prevGenId s.genId) 0 s.tail) (hr : remaining older = x :: post) :
    Surveyed sbi s (survey sbi s older newer) := by
  obtain ⟨hsize, hsize', hdh, hdt, hhead, htail, hgen⟩ := hs
  obtain ⟨hsw, hst, hlt'⟩ := swept_of_remaining_cons hc hw hu hstop hdh hsize hr
  have hcount := hsw.le
  have hdvd := hsw.dvd hdh
  have hb := hst.le
  have hpos := hst.lt
  have hd := hst.dvd
  obtain ⟨b, hbe, hbpos, hble, hhalt⟩ : ∃ b, ((nextStart post sbi.jsize - x.start) / 64 +
      if nextStart post sbi.jsize = sbi.jsize then s.tail / 64 else 0) = b ∧ 0 < b ∧
      64 * b ≤ sbi.jsize - x.start + s.tail ∧
      Halts sbi s.area (prevGenId s.genId) s.tail x.start b := by
    by_cases hend : nextStart post sbi.jsize = sbi.jsize
    · rw [hend] at hst ⊢
      rw [if_pos rfl]
      exact ⟨_, rfl, by omega, by omega, hst.halts_wrapped hdvd hlow hdt (by omega)⟩
    · rw [if_neg hend]
      refine ⟨_, rfl, by omega, by omega,
        hst.halts hdvd hb (.inl (by omega)) (by omega) (.inr ?_)⟩
      rw [offset_of_lt (show nextStart post sbi.jsize < sbi.jsize by omega)]
      exact hst.next.resolve_left hend
  have hf : survey sbi s older newer = ⟨x.start, entries (freed older), b, 0⟩ := by
    simp [survey, hr, hbe]
  rw [hf]
  refine ⟨fun _ => by omega, fun _ => .inl ⟨hcount.1, by dsimp only; omega⟩, ?_,
    Nat.zero_le _, fun _ => by omega, ?_, ⟨_, .older hlt hsw (by dsimp only; omega) hhalt, ?_⟩,
    fun _ => by omega⟩
  · rw [if_neg (by omega)]
    dsimp only
    omega
  · dsimp only
    omega
  · rw [if_neg (by dsimp only; omega)]
    have hfree₀ : Swept (passed (prevGenId s.genId) s.area s.head ((x.start - s.head) / 64))
        s.genId x.start sbi.jsize 0 :=
      Swept.ofUnused (fun le h1 h2 => (hcur.passed hgen) le (by omega) h2) hdvd hsize (by omega)
    obtain ⟨area'', hfr⟩ := front_restarted_free (s := { s with
      head := x.start
      area := passed (prevGenId s.genId) s.area s.head ((x.start - s.head) / 64) }) hgen
      (fun _ => rfl) fun _ => hfree₀
    exact ⟨0, area'', hfr, fun _ h => by dsimp only at h; omega⟩

/-- A pass that goes on at offset 0. -/
theorem surveyed_newer {stop : Nat} (hs : Shape sbi s)
    (hlt : s.tail < s.head) (hc : Chain Region.start Region.len older s.head stop)
    (hstop : stop ≤ sbi.jsize) (hw : ∀ r ∈ older, r.Written (prevGenId s.genId) s.area)
    (hu : Unused s.area (prevGenId s.genId) stop sbi.jsize)
    (hc' : Chain Region.start Region.len newer 0 s.tail)
    (hw' : ∀ r ∈ newer, r.Written s.genId s.area)
    (hcur : Unused s.area s.genId s.tail sbi.jsize) (hr : remaining older = []) :
    Surveyed sbi s (survey sbi s older newer) := by
  obtain ⟨hsize, hsize', hdh, hdt, hhead, htail, hgen⟩ := hs
  have hsw₁ := swept_of_remaining_nil hc hw hu hstop hdh hsize hr
  have hcount₁ := hsw₁.le
  cases hr' : remaining newer with
  | nil =>
    have hsw₂ := swept_of_remaining_nil hc' hw' (unused_self : Unused _ _ s.tail s.tail)
      (le_refl _) (Nat.dvd_zero _) hdt hr'
    have hcount₂ := hsw₂.le
    have hf : survey sbi s older newer = ⟨s.tail, entries older + entries newer, 0, 0⟩ := by
      simp [survey, hr, hr']
    rw [hf]
    refine ⟨fun _ => by omega, fun _ => .inr (le_refl _), ?_, by simp, fun _ => by omega, by simp,
      ⟨_, .newer hlt hsw₁ hsw₂ (le_refl _) (.inl ⟨rfl, rfl⟩), ?_⟩, fun _ => by omega⟩
    · rw [if_neg (by omega)]
      dsimp only
      omega
    · rw [if_neg (by dsimp only; omega)]
      have hfree₀ : Swept (passed s.genId (passed (prevGenId s.genId) s.area s.head
          ((sbi.jsize - s.head) / 64)) 0 (s.tail / 64)) s.genId s.tail sbi.jsize 0 :=
        Swept.ofUnused ((hcur.passed hgen).passed hgen) hdt hsize htail.le
      obtain ⟨area'', hfr⟩ := front_restarted_free (s := { s with
        head := s.tail
        area := passed s.genId (passed (prevGenId s.genId) s.area s.head
          ((sbi.jsize - s.head) / 64)) 0 (s.tail / 64) }) hgen (fun _ => rfl) fun _ => hfree₀
      exact ⟨0, area'', hfr, fun _ h => by dsimp only at h; omega⟩
  | cons x post =>
    obtain ⟨hsw₂, hst, hlt'⟩ := swept_of_remaining_cons hc' hw'
      (unused_self : Unused _ _ s.tail s.tail) (le_refl _) (Nat.dvd_zero _) hdt hr'
    obtain ⟨-, hst', -⟩ := swept_of_remaining_cons hc' hw' hcur (by omega) (Nat.dvd_zero _) hsize
      hr'
    have hcount₂ := hsw₂.le
    have hdvd := hsw₂.dvd (Nat.dvd_zero _)
    have hb := hst.le
    have hb' := hst'.le
    have hpos := hst.lt
    have hpos' := hst'.lt
    have hd := hst.dvd
    have hhalt : Halts sbi s.area s.genId s.tail x.start _ :=
      hst.halts hdvd (by omega) (.inr hb) (by omega)
        (hst.next_offset htail.le (offset_of_lt htail))
    have hf : survey sbi s older newer = ⟨x.start, entries older + entries (freed newer),
        (nextStart post s.tail - x.start) / 64, (nextStart post sbi.jsize - x.start) / 64⟩ := by
      simp [survey, hr, hr']
    rw [hf]
    refine ⟨fun _ => by omega, fun _ => .inr (by dsimp only; omega), ?_, by dsimp only; omega,
      fun _ => by omega, ?_, ⟨_, .newer hlt hsw₁ hsw₂ (by dsimp only; omega) hhalt, ?_⟩,
      fun _ => by omega⟩
    · rw [if_neg (by omega)]
      dsimp only
      omega
    · dsimp only
      omega
    · generalize harea : passed s.genId (passed (prevGenId s.genId) s.area s.head
        ((sbi.jsize - s.head) / 64)) 0 (x.start / 64) = area'
      by_cases hz : 0 < x.start
      · -- the transaction is still there, and nothing after it is of its generation
        have hhalt₁ : Halts sbi area' s.genId 0 x.start
            ((nextStart post sbi.jsize - x.start) / 64) := by
          have hcur' : Unused area' s.genId s.tail sbi.jsize :=
            harea ▸ (hcur.passed hgen).passed hgen
          have hsame : ∀ le, x.start ≤ le → le < s.tail → area' le = s.area le := by
            intro le h1 h2
            rw [← harea, passed_of_notMem (.inr (by omega)), passed_of_notMem (.inl (by omega))]
          have hst₁ := hst'.congr hlt' hsame hcur hcur'
          exact hst₁.halts hdvd hb' (.inl (Nat.zero_le _)) (by omega)
            (hst₁.next_offset (le_refl _) (if_pos rfl))
        obtain ⟨area'', hfr⟩ := front_restarted_blocked (s := { s with
          head := x.start, area := area' }) hgen hz .nil
          (show x.start < sbi.jsize by omega) hhalt₁
        rw [if_pos ⟨hz, hlt'⟩]
        exact ⟨x.start, area'', hfr, fun _ _ => rfl⟩
      · rw [if_neg fun h => hz h.1]
        obtain ⟨area'', hfr⟩ := front_restarted_free (s := { s with
          head := x.start, area := area' }) hgen (fun _ => rfl) fun h => absurd h hz
        exact ⟨0, area'', hfr, fun h => absurd h hz⟩

/-- The cleaning passes of a reservation on a well-formed journal. -/
theorem WellFormed.surveyed (hw : WellFormed sbi s older newer) (hs : Shape sbi s) :
    Surveyed sbi s (survey sbi s older newer) := by
  cases hw with
  | straight hle hc hw hu => exact surveyed_straight hs hle hc hw hu
  | wrapped hlt hc hstop hw hu hc' hw' hcur hlow =>
    cases hr : remaining older with
    | nil => exact surveyed_newer hs hlt hc hstop hw hu hc' hw' hcur hr
    | cons x post => exact surveyed_older hs hlt hc hstop hw hu hcur hlow hr

/-! ### How far a pass gets -/

theorem remaining_eq_nil {rs : List Region} : remaining rs = [] ↔ ∀ r ∈ rs, r.blocks = false := by
  simp [remaining, List.dropWhile_eq_nil_iff]

theorem remaining_of_finished {rs : List Region} (h : ∀ r ∈ rs, r.finished = true) :
    remaining rs = [] :=
  remaining_eq_nil.mpr fun r hr => by simp [Region.blocks, h r hr]

theorem mem_of_remaining {rs post : List Region} {r : Region} (h : remaining rs = r :: post) :
    r ∈ rs := by
  have hsuffix : remaining rs <:+ rs := List.dropWhile_suffix _
  exact hsuffix.mem (h ▸ List.mem_cons_self)

/-- A region that blocks the pass ends above its start. -/
theorem Region.Written.lt_of_blocks {area : Nat → LogEntry} {genId : UInt16} {r : Region}
    (h : r.Written genId area) (hb : r.blocks = true) : 0 < r.len := by
  have hpos : r.finished = false ∧ 0 < r.used := by simpa [Region.blocks] using hb
  have := h.used_le
  omega

/-- The survey gets to the tail exactly if no region blocks the pass. -/
theorem WellFormed.head_eq_tail_iff (hw : WellFormed sbi s older newer) :
    (survey sbi s older newer).head = s.tail ↔ ∀ r ∈ older ++ newer, r.blocks = false := by
  simp only [List.mem_append, or_imp, forall_and, ← remaining_eq_nil]
  cases holder : remaining older with
  | nil =>
    cases hnewer : remaining newer with
    | nil => simp [survey, holder, hnewer]
    | cons r post =>
      have hmem := mem_of_remaining hnewer
      have hb := blocks_of_remaining hnewer
      have hlt : r.start < s.tail := by
        cases hw with
        | straight hle hc hwr hu =>
          have := (hwr r hmem).lt_of_blocks hb
          have := (hc.bounds hmem).2
          omega
        | wrapped hlt hc hstop hwr hu hc' hwr' hcur hlow =>
          have := (hwr' r hmem).lt_of_blocks hb
          have := (hc'.bounds hmem).2
          omega
      simp [survey, holder, hnewer, hlt.ne]
  | cons r post =>
    have hlt : s.tail < r.start := by
      cases hw with
      | straight => cases holder
      | wrapped hlt hc hstop hwr hu hc' hwr' hcur hlow =>
        have := (hc.bounds (mem_of_remaining holder)).1
        omega
    simp [survey, holder, hlt.ne']

end

end Wpmfs.Journal
