import Wpmfs.Journal.Region
import Wpmfs.Journal.Transaction

/-!
# What a cleaning pass does

`Swept` describes a stretch of the journal the way the loop of `pmfs_clean_journal` passes it:
unused slots and finished transactions. `Halts` says that the loop stops, at the tail or at a
transaction its walk takes to be unfinished. `Front` puts the stretches together for a journal
that has wrapped or not, and `exec_pmfsCleanJournal` computes the pass on it.
-/

namespace Wpmfs.Journal

open Persist

/-- The end of the area is offset 0 again. -/
def SbInfo.offset (sbi : SbInfo) (b : Nat) : Nat := if b = sbi.jsize then 0 else b

/-- The generation of the slot at `b` when those below it are of the generation `genId`. -/
def SbInfo.genAt (sbi : SbInfo) (genId : UInt16) (b : Nat) : UInt16 :=
  if b = sbi.jsize then nextGenId genId else genId

section

variable {sbi : SbInfo} {area area' : Nat → LogEntry} {genId : UInt16} {tail a b c n k : Nat}

theorem offset_of_lt (h : a < sbi.jsize) : sbi.offset a = a := if_neg (Nat.ne_of_lt h)

theorem genAt_of_lt (h : a < sbi.jsize) : sbi.genAt genId a = genId := if_neg (Nat.ne_of_lt h)

theorem nextLogEntry_eq (h : a + 64 ≤ sbi.jsize) :
    nextLogEntry sbi.jsize a = sbi.offset (a + 64) := by
  unfold nextLogEntry SbInfo.offset
  split <;> split <;> omega

/-- The loop moves to the next generation where the offset is 0 again. -/
theorem genAt_eq (ha : a < b) :
    (if sbi.offset b = 0 then nextGenId genId else genId) = sbi.genAt genId b := by
  unfold SbInfo.genAt SbInfo.offset
  grind

/-- A record of the generation that starts a transaction. -/
def LogEntry.Starts (le : LogEntry) (genId : UInt16) : Prop := le.genId = genId ∧ le.isStart

/-- A commit or abort record of the generation. -/
def LogEntry.Finishes (le : LogEntry) (genId : UInt16) : Prop := le.genId = genId ∧ le.isFinish

/-! ### The walk over one transaction -/

/-- One turn of the walk at an entry that finishes nothing. -/
theorem processWalk_succ {jsize fuel : Nat} (hf : ¬(area a).Finishes genId)
    (hn : nextLogEntry jsize a ≠ tail) (hs : ¬(area (nextLogEntry jsize a)).Starts genId) :
    processWalk area jsize tail genId (fuel + 1) a n =
      processWalk area jsize tail genId fuel (nextLogEntry jsize a) (n + 1) := by
  simp only [LogEntry.Finishes, LogEntry.Starts] at hf hs
  rw [processWalk]
  simp only [Bool.and_eq_true, beq_iff_eq, hn, false_or]
  rw [if_neg (fun h => hf ⟨h.1.symm, h.2⟩), if_neg (fun h => hs ⟨h.1.symm, h.2⟩)]

/-- The walk at the record it looks for. -/
theorem processWalk_finishes {jsize fuel : Nat} (hf : (area a).Finishes genId) :
    processWalk area jsize tail genId (fuel + 1) a n =
      some (.finished (nextLogEntry jsize a) (n + 1)) := by
  rw [processWalk]
  simp [hf.1, hf.2]

/-- The walk at an entry that finishes nothing, before the tail or a start record. -/
theorem processWalk_stops {jsize fuel : Nat} (hf : ¬(area a).Finishes genId)
    (hn : nextLogEntry jsize a = tail ∨ (area (nextLogEntry jsize a)).Starts genId) :
    processWalk area jsize tail genId (fuel + 1) a n =
      some (.unfinished (nextLogEntry jsize a) (n + 1)) := by
  simp only [LogEntry.Finishes] at hf
  rw [processWalk]
  simp only [Bool.and_eq_true, beq_iff_eq]
  rw [if_neg (fun h => hf ⟨h.1.symm, h.2⟩), if_pos (hn.imp_right fun h => ⟨h.1.symm, h.2⟩)]

/-- The walk that starts at `a` gets to `b`. -/
structure Quiet (area : Nat → LogEntry) (genId : UInt16) (tail a b : Nat) : Prop where
  finish : ∀ le, a ≤ le → le < b → 64 ∣ le → ¬(area le).Finishes genId
  start : ∀ le, a < le → le ≤ b → 64 ∣ le → ¬(area le).Starts genId
  tail : ∀ le, a < le → le ≤ b → le ≠ tail

/-- The walk passes quiet slots. -/
theorem processWalk_quiet {fuel : Nat} (h : Quiet area genId tail a (a + 64 * k)) (ha : 64 ∣ a)
    (hb : a + 64 * k < sbi.jsize) :
    processWalk area sbi.jsize tail genId (fuel + k) a n =
      processWalk area sbi.jsize tail genId fuel (a + 64 * k) (n + k) := by
  induction k generalizing a n with
  | zero => rfl
  | succ k ih =>
    have hnext : nextLogEntry sbi.jsize a = a + 64 := by
      rw [nextLogEntry_eq (by omega), offset_of_lt (by omega)]
    rw [← Nat.add_assoc fuel k 1, processWalk_succ (h.finish a (by omega) (by omega) ha)
      (by rw [hnext]; exact h.tail _ (by omega) (by omega))
      (by rw [hnext]; exact h.start _ (by omega) (by omega) (by omega)), hnext,
      ih ⟨fun le h1 h2 => h.finish le (by omega) (by omega),
        fun le h1 h2 => h.start le (by omega) (by omega),
        fun le h1 h2 => h.tail le (by omega) (by omega)⟩ (by omega) (by omega)]
    congr 1 <;> omega

/-- The walk reads the slots it can get to before the tail only. -/
theorem processWalk_congr {jsize fuel : Nat} (S : Set Nat)
    (hS : ∀ le ∈ S, nextLogEntry jsize le = tail ∨ nextLogEntry jsize le ∈ S)
    (harea : ∀ le ∈ S, area le = area' le) (ha : a ∈ S) :
    processWalk area jsize tail genId fuel a n = processWalk area' jsize tail genId fuel a n := by
  induction fuel generalizing a n with
  | zero => rfl
  | succ fuel ih =>
    rw [processWalk, processWalk, harea a ha]
    dsimp only
    split
    · rfl
    · rcases hS a ha with ht | hn
      · simp [ht]
      · rw [harea _ hn, ih hn]

/-! ### The loop of the pass -/

/-- The entries of a finished transaction, `used` of them from `a` on. -/
structure Ended (area : Nat → LogEntry) (genId : UInt16) (a used : Nat) : Prop where
  pos : 0 < used
  used_lt : used < 2 ^ 16
  gen : ∀ i < used, (area (a + 64 * i)).genId = genId
  isStart : ∀ i < used, (area (a + 64 * i)).isStart = decide (i = 0)
  isFinish : ∀ i < used, (area (a + 64 * i)).isFinish = decide (i + 1 = used)

theorem Ended.congr {area area' : Nat → LogEntry} {genId : UInt16} {a used : Nat}
    (h : Ended area genId a used)
    (harea : ∀ i < used, area' (a + 64 * i) = area (a + 64 * i)) : Ended area' genId a used := by
  refine ⟨h.pos, h.used_lt, fun i hi => ?_, fun i hi => ?_, fun i hi => ?_⟩
  · rw [harea i hi, h.gen i hi]
  · rw [harea i hi, h.isStart i hi]
  · rw [harea i hi, h.isFinish i hi]

/-- The stretch from `a` up to `b` as the pass moves over it in the generation `genId`; `n` is
the number of entries it counts as processed. -/
inductive Swept (area : Nat → LogEntry) (genId : UInt16) : (a b n : Nat) → Prop where
  | nil {a : Nat} : Swept area genId a a 0
  | unused {a b n : Nat} : (area a).genId ≠ genId → Swept area genId (a + 64) b n →
      Swept area genId a b n
  | ended {a used b n : Nat} : Ended area genId a used → Swept area genId (a + 64 * used) b n →
      Swept area genId a b (used + n)

theorem Swept.le (h : Swept area genId a b n) : a ≤ b ∧ 64 * n ≤ b - a := by
  induction h with
  | nil => omega
  | unused _ _ ih => omega
  | ended _ _ ih => omega

theorem Swept.dvd (h : Swept area genId a b n) (ha : 64 ∣ a) : 64 ∣ b := by
  induction h with
  | nil => exact ha
  | unused _ _ ih => exact ih (by omega)
  | ended _ _ ih => exact ih (by omega)

theorem Swept.append {m : Nat} (h : Swept area genId a b n) (h' : Swept area genId b c m) :
    Swept area genId a c (n + m) := by
  induction h with
  | nil => simpa using h'
  | unused hg _ ih => exact .unused hg (ih h')
  | ended he _ ih =>
    rw [Nat.add_assoc]
    exact .ended he (ih h')

theorem Swept.unusedRun (h : ∀ i < k, (area (a + 64 * i)).genId ≠ genId) :
    Swept area genId a (a + 64 * k) 0 := by
  induction k generalizing a with
  | zero => exact .nil
  | succ k ih =>
    have hk : Swept area genId (a + 64) (a + 64 + 64 * k) 0 := by
      refine ih fun i hi => ?_
      have := h (i + 1) (by omega)
      rwa [Nat.mul_add, Nat.add_comm (64 * i), ← Nat.add_assoc] at this
    rw [show a + 64 * (k + 1) = a + 64 + 64 * k by omega]
    exact .unused (h 0 (by omega)) hk

theorem Swept.congr (h : Swept area genId a b n)
    (harea : ∀ le, a ≤ le → le < b → area le = area' le) : Swept area' genId a b n := by
  induction h with
  | nil => exact .nil
  | @unused a b n hg h ih =>
    have hle := h.le
    exact .unused (harea a (le_refl _) (by omega) ▸ hg) (ih fun le h1 => harea le (by omega))
  | @ended a used b n he h ih =>
    have hle := h.le
    exact .ended (he.congr fun i hi => (harea _ (by omega) (by omega)).symm)
      (ih fun le h1 => harea le (by omega))

theorem clearGenIds_add (area : Nat → LogEntry) (a k m : Nat) :
    clearGenIds (clearGenIds area a k) (a + 64 * k) m = clearGenIds area a (k + m) := by
  induction m with
  | zero => rfl
  | succ m ih =>
    rw [clearGenIds, ih, Nat.add_succ, clearGenIds,
      show a + 64 * k + 64 * m = a + 64 * (k + m) by omega]

theorem passed_add (genId : UInt16) (area : Nat → LogEntry) (a k m : Nat) :
    passed genId (passed genId area a k) (a + 64 * k) m = passed genId area a (k + m) := by
  unfold passed
  split
  · exact clearGenIds_add area a k m
  · rfl

@[simp] theorem passed_zero (genId : UInt16) (area : Nat → LogEntry) (a : Nat) :
    passed genId area a 0 = area := by
  unfold passed
  split <;> rfl

variable {fuel total : Nat} {s : Image}

/-- The loop passes an unused slot. -/
theorem exec_cleanLoop_unused (ha : a ≠ tail) (hend : a + 64 ≤ sbi.jsize)
    (hg : (s.area a).genId ≠ genId) :
    (cleanLoop sbi tail (fuel + 1) a genId total).exec s =
      (cleanLoop sbi tail fuel (sbi.offset (a + 64)) (sbi.genAt genId (a + 64)) total).exec
        { s with area := passed genId s.area a 1 } := by
  rw [cleanLoop, if_neg ha]
  simp only [Prog.exec]
  rw [if_neg (by simpa using Ne.symm hg), nextLogEntry_eq hend,
    genAt_eq (show a < a + 64 by omega)]
  unfold passed
  split <;> rfl

/-- The walk of a finished transaction ends at its last entry. -/
theorem Ended.processWalk {used : Nat} (he : Ended area genId a used) (ha : 64 ∣ a)
    (htail : tail < a ∨ a + 64 * used ≤ tail) (hend : a + 64 * used ≤ sbi.jsize) :
    processWalk area sbi.jsize tail genId (sbi.slots + 1) a 0 =
      some (.finished (sbi.offset (a + 64 * used)) used) := by
  obtain ⟨k, rfl⟩ : ∃ k, used = k + 1 := ⟨used - 1, by have := he.pos; omega⟩
  have hlast : (area (a + 64 * k)).Finishes genId :=
    ⟨he.gen k (by omega), by simpa using he.isFinish k (by omega)⟩
  have hquiet : Quiet area genId tail a (a + 64 * k) := by
    refine ⟨fun le h1 h2 h3 hf => ?_, fun le h1 h2 h3 hs => ?_, fun le h1 h2 => by omega⟩
    · obtain ⟨i, hi, rfl⟩ : ∃ i < k, le = a + 64 * i := ⟨(le - a) / 64, by omega, by omega⟩
      have := hf.2
      rw [he.isFinish i (by omega), decide_eq_true_iff] at this
      omega
    · obtain ⟨i, hi, hik, rfl⟩ : ∃ i, 0 < i ∧ i ≤ k ∧ le = a + 64 * i :=
        ⟨(le - a) / 64, by omega, by omega, by omega⟩
      have := hs.2
      rw [he.isStart i (by omega), decide_eq_true_iff] at this
      omega
  have hfuel : sbi.slots + 1 = sbi.slots - k + 1 + k := by
    unfold SbInfo.slots
    omega
  rw [hfuel, processWalk_quiet hquiet ha (by omega), processWalk_finishes hlast,
    nextLogEntry_eq (by omega), Nat.zero_add]
  rfl

theorem exec_pmfsProcessTransaction {used : Nat} (he : Ended s.area genId a used) (ha : 64 ∣ a)
    (htail : tail < a ∨ a + 64 * used ≤ tail) (hend : a + 64 * used ≤ sbi.jsize) :
    (pmfsProcessTransaction sbi a tail).exec s =
      ({ s with area := passed genId s.area a used },
        .ok (sbi.offset (a + 64 * used), used)) := by
  have hgen : (s.area a).genId = genId := he.gen 0 he.pos
  have hstart : (s.area a).isStart = true := by simpa using he.isStart 0 he.pos
  simp only [pmfsProcessTransaction, Prog.exec, hgen, hstart, he.processWalk ha htail hend,
    Bool.not_true, Bool.false_eq_true, if_false, Nat.mod_eq_of_lt he.used_lt]
  unfold passed
  by_cases hx : genId = maxGenId
  · rw [if_pos hx, if_pos hx, Prog.exec_bind, exec_pmfsInvalidateLogentries]
    rfl
  · rw [if_neg hx, if_neg hx]
    rfl

/-- The loop passes a finished transaction. -/
theorem exec_cleanLoop_ended {used : Nat} (he : Ended s.area genId a used) (ha : 64 ∣ a)
    (htail : tail < a ∨ a + 64 * used ≤ tail) (hend : a + 64 * used ≤ sbi.jsize)
    (hnew : 0 < a ∨ a + 64 * used < sbi.jsize) :
    (cleanLoop sbi tail (fuel + 1) a genId total).exec s =
      (cleanLoop sbi tail fuel (sbi.offset (a + 64 * used))
        (sbi.genAt genId (a + 64 * used)) (total + used)).exec
        { s with area := passed genId s.area a used } := by
  have hpos := he.pos
  have hne : a ≠ tail := by omega
  have hprogress : sbi.offset (a + 64 * used) ≠ a := by
    unfold SbInfo.offset
    split <;> omega
  have hgen : (s.area a).genId = genId := he.gen 0 he.pos
  rw [cleanLoop, if_neg hne]
  simp only [Prog.exec, hgen, beq_self_eq_true, if_true, Prog.exec_bind,
    exec_pmfsProcessTransaction he ha htail hend, if_neg hprogress,
    genAt_eq (show a < a + 64 * used by omega)]

/-- The loop on a stretch: it arrives at the upper end with the entries counted. -/
theorem exec_cleanLoop (h : Swept area genId a b n) (fuel tail total : Nat) (s : Image)
    (harea : ∀ le, a ≤ le → le < b → s.area le = area le) (hsize : 64 ∣ sbi.jsize) (ha : 64 ∣ a)
    (hb : b ≤ sbi.jsize) (htail : tail < a ∨ b ≤ tail) (hnew : 0 < a ∨ b < sbi.jsize)
    (hfuel : (b - a) / 64 ≤ fuel) :
    ∃ fuel', fuel ≤ fuel' + (b - a) / 64 ∧
      (cleanLoop sbi tail fuel (sbi.offset a) (sbi.genAt genId a) total).exec s =
        (cleanLoop sbi tail fuel' (sbi.offset b) (sbi.genAt genId b) (total + n)).exec
          { s with area := passed genId s.area a ((b - a) / 64) } := by
  induction h generalizing fuel total s with
  | nil => exact ⟨fuel, by omega, by simp⟩
  | @unused a b n hg h ih =>
    have hle := h.le
    obtain ⟨fuel, rfl⟩ : ∃ f, fuel = f + 1 := ⟨fuel - 1, by omega⟩
    obtain ⟨fuel', hf, he⟩ := ih fuel total { s with area := passed genId s.area a 1 }
      (fun le h1 h2 => by
        rw [← harea le (by omega) h2]
        exact passed_of_notMem (.inr (by omega)))
      (by omega) hb (by omega) (by omega) (by omega)
    refine ⟨fuel', by omega, ?_⟩
    rw [offset_of_lt (by omega), genAt_of_lt (by omega),
      exec_cleanLoop_unused (by omega) (by omega) (by rw [harea a (by omega) (by omega)]; exact hg),
      he]
    dsimp only
    rw [show a + 64 = a + 64 * 1 by omega, passed_add,
      show 1 + (b - (a + 64 * 1)) / 64 = (b - a) / 64 by omega]
  | @ended a used b n hend h ih =>
    have hle := h.le
    have hpos := hend.pos
    have hsame : Ended s.area genId a used :=
      hend.congr fun i hi => harea _ (by omega) (by omega)
    obtain ⟨fuel, rfl⟩ : ∃ f, fuel = f + 1 := ⟨fuel - 1, by omega⟩
    obtain ⟨fuel', hf, he⟩ := ih fuel (total + used)
      { s with area := passed genId s.area a used }
      (fun le h1 h2 => by
        rw [← harea le (by omega) h2]
        exact passed_of_notMem (.inr (by omega)))
      (by omega) hb (by omega) (by omega) (by omega)
    refine ⟨fuel', by omega, ?_⟩
    rw [offset_of_lt (by omega), genAt_of_lt (by omega),
      exec_cleanLoop_ended hsame ha (by omega) (by omega) (by omega), he, Nat.add_assoc]
    dsimp only
    rw [passed_add, show used + (b - (a + 64 * used)) / 64 = (b - a) / 64 by omega]

/-- The pass stops at `h`: it has got to the tail, or the walk of the transaction that starts
there meets no commit or abort record and counts `b` entries. -/
def Halts (sbi : SbInfo) (area : Nat → LogEntry) (genId : UInt16) (tail h b : Nat) : Prop :=
  h = tail ∧ b = 0 ∨
    h ≠ tail ∧ (area h).Starts genId ∧
      ∃ e, processWalk area sbi.jsize tail genId (sbi.slots + 1) h 0 = some (.unfinished e b)

theorem exec_cleanLoop_halts (h : Halts sbi s.area genId tail a n) :
    (cleanLoop sbi tail (fuel + 1) a genId total).exec s = (s, .ok (a, total + n)) := by
  rw [cleanLoop]
  obtain ⟨rfl, rfl⟩ | ⟨hne, ⟨hg, hs⟩, e, he⟩ := h
  · rw [if_pos rfl]
    rfl
  · rw [if_neg hne]
    simp only [Prog.exec, hg, beq_self_eq_true, if_true, Prog.exec_bind, pmfsProcessTransaction,
      hs, Bool.not_true, Bool.false_eq_true, if_false, he]

/-- Where the pass stops depends on the slots between there and the tail only. -/
theorem Halts.congr (h : Halts sbi area genId tail a n) (S : Set Nat)
    (hS : ∀ le ∈ S, nextLogEntry sbi.jsize le = tail ∨ nextLogEntry sbi.jsize le ∈ S)
    (harea : ∀ le ∈ S, area le = area' le) (ha : a ≠ tail → a ∈ S) :
    Halts sbi area' genId tail a n := by
  obtain h | ⟨hne, hs, e, he⟩ := h
  · exact .inl h
  · exact .inr ⟨hne, harea a (ha hne) ▸ hs, e, processWalk_congr S hS harea (ha hne) ▸ he⟩

end

/-- What a cleaning pass meets from the image `s` on: it moves the head to `head'`, leaves the
entries `area'`, and reports `n` entries of finished transactions and `b` entries of the
transaction it stops at. -/
inductive Front (sbi : SbInfo) (s : Image) :
    (head' : Nat) → (area' : Nat → LogEntry) → (n b : Nat) → Prop where
  /-- The journal has not wrapped. -/
  | straight {h n b : Nat} : s.head ≤ s.tail → Swept s.area s.genId s.head h n → h ≤ s.tail →
      Halts sbi s.area s.genId s.tail h b →
      Front sbi s h (passed s.genId s.area s.head ((h - s.head) / 64)) n b
  /-- The pass stops before the end of the area. -/
  | older {h n b : Nat} : s.tail < s.head → Swept s.area (prevGenId s.genId) s.head h n →
      h < sbi.jsize → Halts sbi s.area (prevGenId s.genId) s.tail h b →
      Front sbi s h (passed (prevGenId s.genId) s.area s.head ((h - s.head) / 64)) n b
  /-- The pass goes on at offset 0. -/
  | newer {n₁ h n b : Nat} : s.tail < s.head →
      Swept s.area (prevGenId s.genId) s.head sbi.jsize n₁ → Swept s.area s.genId 0 h n →
      h ≤ s.tail → Halts sbi s.area s.genId s.tail h b →
      Front sbi s h (passed s.genId
        (passed (prevGenId s.genId) s.area s.head ((sbi.jsize - s.head) / 64)) 0 (h / 64))
        (n₁ + n) b

/-- The offsets and sizes of a journal. -/
structure Shape (sbi : SbInfo) (s : Image) : Prop where
  dvd_size : 64 ∣ sbi.jsize
  size_le : sbi.jsize ≤ 2 ^ 31
  dvd_head : 64 ∣ s.head
  dvd_tail : 64 ∣ s.tail
  head_lt : s.head < sbi.jsize
  tail_lt : s.tail < sbi.jsize
  genId_ne : s.genId ≠ 0

section

variable {sbi : SbInfo} {s : Image} {h n b : Nat} {area' : Nat → LogEntry}

theorem exec_pmfsCleanJournal_of_cleanLoop {genId : UInt16}
    (hg : (if s.tail < s.head then prevGenId s.genId else s.genId) = genId)
    (hl : (cleanLoop sbi s.tail (sbi.slots + 1) s.head genId 0).exec s =
      ({ s with area := area' }, .ok (h, n))) :
    (pmfsCleanJournal sbi).exec s = ({ s with head := h, area := area' }, .ok n) := by
  simp only [pmfsCleanJournal, Prog.exec, hg, Prog.exec_bind, hl]
  rfl

/-- The pass leaves the slots from where it stops up to the tail as they are. -/
theorem Front.halts (hs : Shape sbi s) (hf : Front sbi s h area' n b) :
    Halts sbi area' (if s.tail < h then prevGenId s.genId else s.genId) s.tail h b := by
  obtain ⟨hsize, hsize', hdh, hdt, hhead, htail, hgen⟩ := hs
  -- the walk below the tail
  have hbelow : ∀ le ∈ {le | h ≤ le ∧ le < s.tail ∧ 64 ∣ le},
      nextLogEntry sbi.jsize le = s.tail ∨
        nextLogEntry sbi.jsize le ∈ {le | h ≤ le ∧ le < s.tail ∧ 64 ∣ le} := by
    rintro le ⟨h1, h2, h3⟩
    rw [nextLogEntry_eq (by omega), offset_of_lt (by omega)]
    have : le + 64 = s.tail ∨ le + 64 < s.tail := by omega
    exact this.imp_right fun h => ⟨by omega, h, by omega⟩
  cases hf with
  | straight hle hsw hh hhalt =>
    have hhle := hsw.le
    have hdvd := hsw.dvd hdh
    rw [if_neg (by omega)]
    refine hhalt.congr _ hbelow ?_ fun hne => ⟨le_refl _, by omega, hdvd⟩
    rintro le ⟨h1, h2, h3⟩
    exact (passed_of_notMem (.inr (by omega))).symm
  | older hlt hsw hh hhalt =>
    have hhle := hsw.le
    have hdvd := hsw.dvd hdh
    rw [if_pos (by omega)]
    refine hhalt.congr {le | (h ≤ le ∧ le < sbi.jsize ∨ le < s.tail) ∧ 64 ∣ le} ?_ ?_
      fun hne => ⟨.inl ⟨le_refl _, hh⟩, hdvd⟩
    · rintro le ⟨h1, h2⟩
      rw [nextLogEntry_eq (by omega), SbInfo.offset]
      split
      · have : 0 = s.tail ∨ 0 < s.tail := by omega
        exact this.imp_right fun h => ⟨.inr h, Nat.dvd_zero _⟩
      · have : le + 64 = s.tail ∨ (h ≤ le + 64 ∧ le + 64 < sbi.jsize ∨ le + 64 < s.tail) := by
          omega
        exact this.imp_right fun h => ⟨h, by omega⟩
    · rintro le ⟨h1, h2⟩
      exact (passed_of_notMem (by omega)).symm
  | newer hlt hsw₁ hsw₂ hh hhalt =>
    have hhle := hsw₂.le
    have hdvd := hsw₂.dvd (Nat.dvd_zero _)
    rw [if_neg (by omega)]
    refine hhalt.congr _ hbelow ?_ fun hne => ⟨le_refl _, by omega, hdvd⟩
    rintro le ⟨h1, h2, h3⟩
    rw [passed_of_notMem (.inr (by omega)), passed_of_notMem (.inl (by omega))]

theorem exec_pmfsCleanJournal (hs : Shape sbi s) (hf : Front sbi s h area' n b) :
    (pmfsCleanJournal sbi).exec s =
      ({ s with head := h, area := area' }, .ok (n + b)) := by
  have hhalts := hf.halts hs
  obtain ⟨hsize, hsize', hdh, hdt, hhead, htail, hgen⟩ := hs
  have hslots : sbi.slots = sbi.jsize / 64 := rfl
  cases hf with
  | straight hle hsw hh _ =>
    have hhle := hsw.le
    rw [if_neg (by omega)] at hhalts
    obtain ⟨fuel, hfuel, he⟩ := exec_cleanLoop hsw (sbi.slots + 1) s.tail 0 s
      (fun _ _ _ => rfl) hsize hdh (by omega) (.inr hh) (.inr (by omega)) (by omega)
    obtain ⟨fuel, rfl⟩ : ∃ f, fuel = f + 1 := ⟨fuel - 1, by omega⟩
    refine exec_pmfsCleanJournal_of_cleanLoop (if_neg (by omega)) ?_
    rw [offset_of_lt hhead, genAt_of_lt hhead, offset_of_lt (by omega),
      genAt_of_lt (by omega)] at he
    rw [he, exec_cleanLoop_halts hhalts, Nat.zero_add]
  | older hlt hsw hh _ =>
    have hhle := hsw.le
    rw [if_pos (by omega)] at hhalts
    obtain ⟨fuel, hfuel, he⟩ := exec_cleanLoop hsw (sbi.slots + 1) s.tail 0 s
      (fun _ _ _ => rfl) hsize hdh (by omega) (.inl hlt) (.inr (by omega)) (by omega)
    obtain ⟨fuel, rfl⟩ : ∃ f, fuel = f + 1 := ⟨fuel - 1, by omega⟩
    refine exec_pmfsCleanJournal_of_cleanLoop (if_pos hlt) ?_
    rw [offset_of_lt hhead, genAt_of_lt hhead, offset_of_lt hh, genAt_of_lt hh] at he
    rw [he, exec_cleanLoop_halts hhalts, Nat.zero_add]
  | @newer n₁ h n b hlt hsw₁ hsw₂ hh _ =>
    have hhle := hsw₂.le
    rw [if_neg (by omega)] at hhalts
    obtain ⟨fuel₁, hfuel₁, he₁⟩ := exec_cleanLoop hsw₁ (sbi.slots + 1) s.tail 0 s
      (fun _ _ _ => rfl) hsize hdh (le_refl _) (.inl hlt) (.inl (by omega)) (by omega)
    obtain ⟨fuel, hfuel, he⟩ := exec_cleanLoop hsw₂ fuel₁ s.tail (0 + n₁)
      { s with area := passed (prevGenId s.genId) s.area s.head ((sbi.jsize - s.head) / 64) }
      (fun le _ h2 => passed_of_notMem (.inl (by omega))) hsize (Nat.dvd_zero _) (by omega)
      (.inr hh) (.inr (by omega)) (by omega)
    obtain ⟨fuel, rfl⟩ : ∃ f, fuel = f + 1 := ⟨fuel - 1, by omega⟩
    refine exec_pmfsCleanJournal_of_cleanLoop (if_pos hlt) ?_
    rw [offset_of_lt hhead, genAt_of_lt hhead] at he₁
    rw [offset_of_lt (show 0 < sbi.jsize by omega), genAt_of_lt (show 0 < sbi.jsize by omega),
      offset_of_lt (by omega), genAt_of_lt (by omega)] at he
    rw [he₁, show sbi.offset sbi.jsize = 0 from if_pos rfl,
      show sbi.genAt (prevGenId s.genId) sbi.jsize = s.genId by
        rw [SbInfo.genAt, if_pos rfl, nextGenId_prevGenId hgen], he]
    rw [exec_cleanLoop_halts hhalts, Nat.zero_add]
    rfl

/-- A second pass makes no progress, and reports the entries it stops at again. -/
theorem Front.again (hs : Shape sbi s) (hf : Front sbi s h area' n b) :
    Front sbi { s with head := h, area := area' } h area' 0 b := by
  have hhalts := hf.halts hs
  by_cases hlt : s.tail < h
  · rw [if_pos hlt] at hhalts
    have hh : h < sbi.jsize := by
      cases hf with
      | straight _ _ hh _ => omega
      | older _ _ hh _ => exact hh
      | newer _ _ _ hh _ => omega
    have := Front.older (s := { s with head := h, area := area' }) hlt .nil hh hhalts
    rwa [Nat.sub_self, Nat.zero_div, passed_zero] at this
  · rw [if_neg hlt] at hhalts
    have := Front.straight (s := { s with head := h, area := area' }) (Nat.le_of_not_lt hlt) .nil
      (Nat.le_of_not_lt hlt) hhalts
    rwa [Nat.sub_self, Nat.zero_div, passed_zero] at this

theorem Front.shape (hs : Shape sbi s) (hf : Front sbi s h area' n b) :
    Shape sbi { s with head := h, area := area' } := by
  obtain ⟨hsize, hsize', hdh, hdt, hhead, htail, hgen⟩ := hs
  refine ⟨hsize, hsize', ?_, hdt, ?_, htail, hgen⟩
  · cases hf with
    | straight _ hsw _ _ => exact hsw.dvd hdh
    | older _ hsw _ _ => exact hsw.dvd hdh
    | newer _ _ hsw _ _ => exact hsw.dvd (Nat.dvd_zero _)
  · cases hf with
    | straight _ _ hh _ => dsimp only; omega
    | older _ _ hh _ => exact hh
    | newer _ _ _ hh _ => dsimp only; omega

/-- What the passes report, with the space free before them, covers the request after at most
three passes, in the arithmetic of `uint32_t`. -/
def Reported (avail n b req : Nat) : Prop :=
  ∃ k, 1 ≤ k ∧ k ≤ 3 ∧ req ≤ avail + 64 * (n + k * b) ∧ avail + 64 * (n + k * b) < 2 ^ 32

theorem reported_iff {avail n b req : Nat} : Reported avail n b req ↔
    (req ≤ avail + 64 * (n + b) ∧ avail + 64 * (n + b) < 2 ^ 32) ∨
    (req ≤ avail + 64 * (n + 2 * b) ∧ avail + 64 * (n + 2 * b) < 2 ^ 32) ∨
    (req ≤ avail + 64 * (n + 3 * b) ∧ avail + 64 * (n + 3 * b) < 2 ^ 32) := by
  constructor
  · rintro ⟨k, h1, h3, h⟩
    obtain rfl | rfl | rfl : k = 1 ∨ k = 2 ∨ k = 3 := by omega
    · exact .inl (by rwa [Nat.one_mul] at h)
    · exact .inr (.inl h)
    · exact .inr (.inr h)
  · rintro (h | h | h)
    · exact ⟨1, by omega, by omega, by rwa [Nat.one_mul]⟩
    · exact ⟨2, by omega, by omega, h⟩
    · exact ⟨3, by omega, by omega, h⟩

/-- One turn of the loop that frees entries. -/
theorem exec_freeLoop_succ (hs : Shape sbi s) (hf : Front sbi s h area' n b)
    {avail req retry freed : Nat} :
    (freeLoop sbi avail req (retry + 1) freed).exec s =
      if (avail + (freed + 64 * (n + b)) % 2 ^ 32) % 2 ^ 32 ≥ req then
        ({ s with head := h, area := area' }, .ok ((freed + 64 * (n + b)) % 2 ^ 32))
      else (freeLoop sbi avail req retry ((freed + 64 * (n + b)) % 2 ^ 32)).exec
        { s with head := h, area := area' } := by
  simp only [freeLoop, pmfsFreeLogentries, Prog.exec_bind, exec_pmfsCleanJournal hs hf, Prog.exec]
  split <;> rfl

/-- The cleaning passes of a reservation leave what one pass leaves. -/
theorem exec_freeLoop (hs : Shape sbi s) (hf : Front sbi s h area' n b) {avail req : Nat}
    (hb : 64 * b ≤ 2 ^ 31) (hfit : avail + 64 * (n + b) < 2 ^ 32) (hreq : req < 2 ^ 32) :
    ∃ freed, (freeLoop sbi avail req 3 0).exec s =
        ({ s with head := h, area := area' }, .ok freed) ∧
      (req ≤ (avail + freed) % 2 ^ 32 ↔ Reported avail n b req) := by
  have hagain := hf.again hs
  have hshape := hf.shape hs
  rw [exec_freeLoop_succ hs hf, reported_iff]
  split
  · exact ⟨_, rfl, by omega⟩
  · rw [exec_freeLoop_succ hshape hagain]
    split
    · exact ⟨_, rfl, by omega⟩
    · rw [exec_freeLoop_succ hshape hagain]
      split
      · exact ⟨_, rfl, by omega⟩
      · exact ⟨_, rfl, by omega⟩

end

end Wpmfs.Journal
