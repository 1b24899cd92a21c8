import Wpmfs.Journal.Recovery
import Wpmfs.Journal.Region

/-!
# What the backward scan does

`Scanned` describes a stretch of the journal the way the loop of `pmfs_recover_undo_journal`
passes it: unused slots, and runs of entries on which the inner walk ends. `exec_recoverLoop`
computes the loop on such a stretch: memory is undone by the log the stretch holds, and
entries outside it are left alone.
-/

namespace Wpmfs.Journal

open Persist UndoLog

/-- The transaction is undone. -/
def Walk.undoes (w : Walk) : Bool := w.startFound && !w.cmtOrAbrtFound

/-- What the walk undoes. -/
def Walk.log (sbi : SbInfo) (genId : UInt16) (area : Nat → LogEntry) (w : Walk) :
    List (Patch Nat UInt8) :=
  if w.undoes then logOf sbi genId area w.tail w.numEntries else []

/-- Every valid entry the walk undoes has an address. -/
def Walk.Mapped (sbi : SbInfo) (genId : UInt16) (area : Nat → LogEntry) (w : Walk) : Prop :=
  w.undoes → ∀ i < w.numEntries, (area (w.tail + 64 * i)).genId = genId →
    Journal.Mapped sbi (area (w.tail + 64 * i))

theorem exec_pmfsRecoverTransaction {sbi : SbInfo} {head tail : Nat} {s : Image} {w : Walk}
    (hw : recoverWalk s.area sbi.jsize head (s.area tail).genId (s.area tail).transactionId
      (sbi.slots + 1) tail 0 false = .ok w)
    (hm : w.Mapped sbi (s.area tail).genId s.area) :
    (pmfsRecoverTransaction sbi head tail).exec s = ({ s with
      mem := undo (w.log sbi (s.area tail).genId s.area) s.mem
      area := passed (s.area tail).genId s.area w.tail w.numEntries }, .ok w.tail) := by
  unfold pmfsRecoverTransaction Walk.log passed
  simp only [Prog.exec, hw, Walk.undoes]
  by_cases hu : (w.startFound && !w.cmtOrAbrtFound) = true
  · have he : (pmfsUndoTransaction sbi
      { transactionId := (s.area tail).transactionId, numEntries := w.numEntries,
        numUsed := w.numEntries, genId := (s.area tail).genId, start := w.tail }).exec s = _ :=
      exec_pmfsUndoTransaction (hm hu)
    simp only [hu, if_true, Prog.exec_bind, he]
    by_cases hx : (s.area tail).genId = maxGenId
    · simp only [if_pos hx, Prog.exec_bind, exec_pmfsInvalidateLogentries]
      rfl
    · simp only [if_neg hx]
      rfl
  · simp only [Bool.not_eq_true _ ▸ hu, Bool.false_eq_true, if_false]
    by_cases hx : (s.area tail).genId = maxGenId
    · simp only [if_pos hx, Prog.exec_bind, exec_pmfsInvalidateLogentries]
      rfl
    · simp only [if_neg hx]
      rfl

/-- The walk reads entries at and below its starting point only. -/
theorem recoverWalk_congr {area area' : Nat → LogEntry} {jsize head : Nat} {genId : UInt16}
    {tid : UInt32} {fuel tail n : Nat} {cmt : Bool} (h : ∀ le ≤ tail, area le = area' le) :
    recoverWalk area jsize head genId tid fuel tail n cmt =
      recoverWalk area' jsize head genId tid fuel tail n cmt := by
  induction fuel generalizing tail n cmt with
  | zero => rfl
  | succ fuel ih =>
    rw [recoverWalk, recoverWalk, h tail (le_refl _), h (tail - 64) (by omega)]
    dsimp only
    split
    · rfl
    · split
      · rfl
      · split
        · rfl
        · rename_i hz _
          rw [prevLogEntry_of_pos (by omega)]
          exact ih fun le hle => h le (by omega)

/-- The stretch from `a` up to `b` as the backward scan in the generation `genId` passes it.
`log` is what it undoes, oldest first. -/
inductive Scanned (sbi : SbInfo) (head : Nat) (genId : UInt16) (area : Nat → LogEntry) (a : Nat) :
    Nat → List (Patch Nat UInt8) → Prop where
  | nil : Scanned sbi head genId area a a []
  | unused {b log} : Scanned sbi head genId area a b log → (area b).genId ≠ genId →
      Scanned sbi head genId area a (b + 64) log
  | walk {c log w} : Scanned sbi head genId area a w.tail log → (area c).genId = genId →
      recoverWalk area sbi.jsize head genId (area c).transactionId (sbi.slots + 1) c 0 false =
        .ok w →
      w.tail + 64 * w.numEntries ≤ c + 64 → w.tail ≤ c →
      w.Mapped sbi genId area →
      Scanned sbi head genId area a (c + 64) (log ++ w.log sbi genId area)

theorem Scanned.add_le {sbi : SbInfo} {head a b : Nat} {genId : UInt16} {area : Nat → LogEntry}
    {log : List (Patch Nat UInt8)} (h : Scanned sbi head genId area a b log) :
    a = b ∨ a + 64 ≤ b := by
  induction h with
  | nil => exact .inl rfl
  | unused _ _ ih => omega
  | walk _ _ _ _ hle _ ih => omega

section

variable {sbi : SbInfo} {head fuel tail c : Nat} {g genId : UInt16} {s : Image}

/-- The loop passes an unused slot. -/
theorem exec_recoverLoop_unused (hne : head ≠ tail) (hc : prevLogEntry sbi.jsize tail = c)
    (hg : (if tail = 0 then prevGenId g else g) = genId) (hs : (s.area c).genId ≠ genId) :
    (recoverLoop sbi head (fuel + 1) tail g).exec s =
      (recoverLoop sbi head fuel c genId).exec { s with area := passed genId s.area c 1 } := by
  rw [recoverLoop, if_neg hne]
  simp only [hc, hg, Prog.exec]
  rw [if_neg (by simpa using Ne.symm hs)]
  unfold passed
  by_cases hx : genId = maxGenId
  · rw [if_pos hx, if_pos hx]
    rfl
  · rw [if_neg hx, if_neg hx]

/-- The loop passes a run of entries the inner walk ends on. -/
theorem exec_recoverLoop_walk {w : Walk} (hne : head ≠ tail)
    (hc : prevLogEntry sbi.jsize tail = c)
    (hg : (if tail = 0 then prevGenId g else g) = genId) (hs : (s.area c).genId = genId)
    (hw : recoverWalk s.area sbi.jsize head genId (s.area c).transactionId (sbi.slots + 1) c 0
      false = .ok w) (hm : w.Mapped sbi genId s.area) :
    (recoverLoop sbi head (fuel + 1) tail g).exec s =
      (recoverLoop sbi head fuel w.tail genId).exec { s with
        mem := undo (w.log sbi genId s.area) s.mem
        area := passed genId s.area w.tail w.numEntries } := by
  subst hs
  rw [recoverLoop, if_neg hne]
  simp only [hc, hg, Prog.exec]
  rw [if_pos (by simp), Prog.exec_bind, exec_pmfsRecoverTransaction hw hm]

end

/-- The loop on a stretch it enters from `tail`: it arrives at the lower end, memory undone by
the log of the stretch. -/
theorem exec_recoverLoop {sbi : SbInfo} {head a b : Nat} {genId : UInt16}
    {area : Nat → LogEntry} {log : List (Patch Nat UInt8)}
    (h : Scanned sbi head genId area a b log) (fuel tail : Nat) (g : UInt16) (s : Image)
    (harea : ∀ le < b, s.area le = area le) (hfuel : (b - a) / 64 ≤ fuel)
    (hin : ∀ c, a < c → c < b → head ≠ c) (hnil : a = b → tail = a ∧ g = genId)
    (henter : a < b → head ≠ tail ∧ prevLogEntry sbi.jsize tail + 64 = b ∧
      (if tail = 0 then prevGenId g else g) = genId) :
    ∃ fuel' t, (recoverLoop sbi head fuel tail g).exec s =
        (recoverLoop sbi head fuel' a genId).exec t ∧
      fuel ≤ fuel' + (b - a) / 64 ∧ t = { s with mem := t.mem, area := t.area } ∧
      t.mem = undo log s.mem ∧ (∀ le, le < a ∨ b ≤ le → t.area le = s.area le) ∧
      (genId ≠ maxGenId → t.area = s.area) := by
  induction h generalizing fuel tail g s with
  | nil =>
    obtain ⟨rfl, rfl⟩ := hnil rfl
    exact ⟨fuel, s, rfl, by omega, rfl, rfl, fun _ _ => rfl, fun _ => rfl⟩
  | @unused b log hb hu ih =>
    have hle := hb.add_le
    obtain ⟨hne, hc, hg⟩ := henter (by omega)
    have hc : prevLogEntry sbi.jsize tail = b := by omega
    obtain ⟨fuel, rfl⟩ : ∃ f, fuel = f + 1 := ⟨fuel - 1, by omega⟩
    rw [exec_recoverLoop_unused hne hc hg (by rwa [harea b (by omega)])]
    have hpa : ∀ le, le < b ∨ b + 64 ≤ le → passed genId s.area b 1 le = s.area le :=
      fun le hle => passed_of_notMem hle
    obtain ⟨fuel', t, he, hf, ht, hm, ha, hx⟩ := ih fuel b genId
      { s with area := passed genId s.area b 1 }
      (fun le hl => (hpa le (.inl hl)).trans (harea le (by omega)))
      (by omega) (fun c h1 h2 => hin c h1 (by omega)) (fun h => ⟨h.symm, rfl⟩)
      (fun h => ⟨hin b h (by omega), by rw [prevLogEntry_of_pos (by omega)]; omega,
        by rw [if_neg (by omega)]⟩)
    refine ⟨fuel', t, he, by omega, ht, hm, fun le hl => ?_, fun hn => ?_⟩
    · exact (ha le (by omega)).trans (hpa le (by omega))
    · exact (hx hn).trans (if_neg hn)
  | @walk c log w hb hs hw hn hle hmap ih =>
    have hle' := hb.add_le
    obtain ⟨hne, hc, hg⟩ := henter (by omega)
    have hc : prevLogEntry sbi.jsize tail = c := by omega
    obtain ⟨fuel, rfl⟩ : ∃ f, fuel = f + 1 := ⟨fuel - 1, by omega⟩
    have hsame : ∀ i < w.numEntries, s.area (w.tail + 64 * i) = area (w.tail + 64 * i) :=
      fun i hi => harea _ (by omega)
    have hlog : w.log sbi genId s.area = w.log sbi genId area := by
      unfold Walk.log
      rw [logOf_congr hsame]
    rw [exec_recoverLoop_walk hne hc hg (by rwa [harea c (by omega)])
      (by rw [harea c (by omega), recoverWalk_congr fun le hl => harea le (by omega), hw])
      (fun hu i hi => by rw [hsame i hi]; exact hmap hu i hi), hlog]
    have hpa : ∀ le, le < w.tail ∨ c + 64 ≤ le →
        passed genId s.area w.tail w.numEntries le = s.area le :=
      fun le hl => passed_of_notMem (hl.imp_right fun h => by omega)
    obtain ⟨fuel', t, he, hf, ht, hm, ha, hx⟩ := ih fuel w.tail genId
      { s with
        mem := undo (w.log sbi genId area) s.mem
        area := passed genId s.area w.tail w.numEntries }
      (fun le hl => (hpa le (.inl hl)).trans (harea le (by omega)))
      (by omega) (fun c h1 h2 => hin c h1 (by omega)) (fun h => ⟨h.symm, rfl⟩)
      (fun h => ⟨hin _ h (by omega), by rw [prevLogEntry_of_pos (by omega)]; omega,
        by rw [if_neg (by omega)]⟩)
    refine ⟨fuel', t, he, by omega, ht, ?_, fun le hl => ?_, fun hn => ?_⟩
    · rw [hm, undo_append]
    · exact (ha le (by omega)).trans (hpa le (by omega))
    · exact (hx hn).trans (if_neg hn)

/-! ### Regions -/

/-- The undo log of a region, empty once its transaction has finished. -/
def Region.log (sbi : SbInfo) (genId : UInt16) (area : Nat → LogEntry) (r : Region) :
    List (Patch Nat UInt8) :=
  if r.finished then [] else logOf sbi genId area r.start r.used

/-- A region recovery can deal with: every entry it may undo has an address. -/
structure Region.Valid (sbi : SbInfo) (genId : UInt16) (area : Nat → LogEntry) (r : Region) :
    Prop extends Region.Written genId area r where
  mapped : r.finished = false → ∀ i < r.used, Mapped sbi (area (r.start + 64 * i))

/-- Validity and the log depend on the entries of the region only. -/
theorem Region.Valid.congr {sbi : SbInfo} {genId : UInt16} {area area' : Nat → LogEntry}
    {r : Region} (h : r.Valid sbi genId area)
    (he : ∀ i < r.len, area' (r.start + 64 * i) = area (r.start + 64 * i)) :
    r.Valid sbi genId area' ∧ r.log sbi genId area' = r.log sbi genId area := by
  have hle := h.used_le
  refine ⟨⟨h.toWritten.congr he, fun hf i hi => ?_⟩, ?_⟩
  · rw [he i (by omega)]
    exact h.mapped hf i hi
  · unfold Region.log
    rw [logOf_congr fun i hi => he i (by omega)]

section

variable {sbi : SbInfo} {head : Nat} {genId : UInt16} {area : Nat → LogEntry} {r : Region}

/-- The walk from entry `j` of a region goes down to its start record. -/
theorem recoverWalk_region (h : r.Valid sbi genId area)
    (hhead : head ≤ r.start ∨ r.start + 64 * r.len ≤ head) {tid : UInt32}
    {j fuel n : Nat} {cmt : Bool} (hj : j < r.used) (hfuel : j < fuel) (hn : n + j + 1 < 2 ^ 16) :
    recoverWalk area sbi.jsize head genId tid fuel (r.start + 64 * j) n cmt =
      .ok ⟨r.start, n + j + 1, true, cmt || r.finished && decide (j + 1 = r.used)⟩ := by
  induction j generalizing fuel n cmt with
  | zero =>
    obtain ⟨fuel, rfl⟩ : ∃ f, fuel = f + 1 := ⟨fuel - 1, by omega⟩
    have hs := h.isStart 0 hj
    have hf := h.isFinish 0 hj
    have hg := h.gen 0 hj
    have hmod : (n + 1) % 2 ^ 16 = n + 1 := Nat.mod_eq_of_lt hn
    simp only [Nat.mul_zero, Nat.add_zero] at hs hf hg ⊢
    rw [recoverWalk]
    simp only [hs, hf, hg, hmod]
    simp
  | succ j ih =>
    obtain ⟨fuel, rfl⟩ : ∃ f, fuel = f + 1 := ⟨fuel - 1, by omega⟩
    have hprev : r.start + 64 * (j + 1) - 64 = r.start + 64 * j := by omega
    have hf : (area (r.start + 64 * j)).isFinish = false := by
      rw [h.isFinish j (by omega)]
      simp [show j + 1 ≠ r.used by omega]
    have hle := h.used_le
    have hmod : (n + 1) % 2 ^ 16 = n + 1 := Nat.mod_eq_of_lt (by omega)
    rw [recoverWalk]
    simp only [h.isStart _ hj, h.isFinish _ hj, h.gen _ hj, hprev, hf, hmod,
      prevLogEntry_of_pos (show 0 < r.start + 64 * (j + 1) by omega)]
    rw [if_neg (by simp), if_neg (by omega), if_neg (by simp),
      ih (by omega) (by omega) (by omega)]
    simp [show j + 1 ≠ r.used by omega, show n + 1 + j + 1 = n + (j + 1) + 1 by omega]

theorem Scanned.unusedRun {a b n : Nat} {log : List (Patch Nat UInt8)}
    (h : Scanned sbi head genId area a b log)
    (hu : ∀ i < n, (area (b + 64 * i)).genId ≠ genId) :
    Scanned sbi head genId area a (b + 64 * n) log := by
  induction n with
  | zero => exact h
  | succ n ih => exact (ih fun i hi => hu i (by omega)).unused (hu n (by omega))

/-- A stretch followed by a region. -/
theorem Scanned.region {a : Nat} {log : List (Patch Nat UInt8)}
    (h : Scanned sbi head genId area a r.start log) (hv : r.Valid sbi genId area)
    (hhead : head ≤ r.start ∨ r.start + 64 * r.len ≤ head) (hslots : r.used ≤ sbi.slots) :
    Scanned sbi head genId area a (r.start + 64 * r.len) (log ++ r.log sbi genId area) := by
  have hend : r.start + 64 * r.len = r.start + 64 * r.used + 64 * (r.len - r.used) := by
    have := hv.used_le
    omega
  have hstale : ∀ i < r.len - r.used,
      (area (r.start + 64 * r.used + 64 * i)).genId ≠ genId := by
    intro i hi
    have := hv.stale (r.used + i) (by omega) (by omega)
    rwa [Nat.mul_add, ← Nat.add_assoc] at this
  rw [hend]
  refine Scanned.unusedRun ?_ hstale
  by_cases hz : r.used = 0
  · simpa [Region.log, hz] using h
  · have hlast : r.start + 64 * r.used = r.start + 64 * (r.used - 1) + 64 := by omega
    have hlt := hv.used_lt
    have hw : recoverWalk area sbi.jsize head genId (area (r.start + 64 * (r.used - 1))).transactionId
        (sbi.slots + 1) (r.start + 64 * (r.used - 1)) 0 false = _ :=
      recoverWalk_region hv hhead (by omega) (by omega) (by omega)
    rw [show 0 + (r.used - 1) + 1 = r.used by omega,
      show r.used - 1 + 1 = r.used by omega] at hw
    have hlog : r.log sbi genId area = Walk.log sbi genId area
        ⟨r.start, r.used, true, false || r.finished && decide (r.used = r.used)⟩ := by
      cases hfin : r.finished <;> simp [Region.log, Walk.log, Walk.undoes, hfin]
    rw [hlast, hlog]
    refine Scanned.walk h (hv.gen _ (by omega)) hw (by dsimp only; omega) (by dsimp only; omega) ?_
    intro hu i hi _
    refine hv.mapped ?_ i hi
    simpa [Walk.undoes] using hu

/-- A stretch followed by a chain of regions. -/
theorem Scanned.chain {a b c : Nat} {log : List (Patch Nat UInt8)} {rs : List Region}
    (h : Scanned sbi head genId area a b log) (hc : Chain Region.start Region.len rs b c)
    (hv : ∀ r ∈ rs, r.Valid sbi genId area) (hhead : head ≤ b ∨ c ≤ head)
    (hslots : ∀ r ∈ rs, r.used ≤ sbi.slots) :
    Scanned sbi head genId area a c (log ++ rs.flatMap (Region.log sbi genId area)) := by
  induction rs generalizing b log with
  | nil => simpa [show b = c from hc] using h
  | cons r rs ih =>
    obtain ⟨rfl, hc⟩ := hc
    have hle := hc.le
    have hr := h.region (hv r List.mem_cons_self) (hhead.imp_right fun h => by omega)
      (hslots r List.mem_cons_self)
    simpa using ih hr hc (fun q hq => hv q (List.mem_cons_of_mem _ hq)) (by omega)
      (fun q hq => hslots q (List.mem_cons_of_mem _ hq))

end

/-! ### The whole recovery -/

theorem exec_invalidateRemainingJournal (sbi : SbInfo) (jtail : Nat) (s : Image) :
    (invalidateRemainingJournal sbi jtail).exec s =
      ({ s with area := clearGenIds s.area jtail ((sbi.jsize - jtail) / 64) }, .ok ()) := by
  unfold invalidateRemainingJournal
  induction (sbi.jsize - jtail) / 64 with
  | zero => rfl
  | succ n ih =>
    rw [Prog.forRange, Prog.exec_bind, ih]
    rfl

/-- `pmfs_forward_journal` leaves memory as it is. -/
theorem exec_pmfsForwardJournal (sbi : SbInfo) (s : Image) :
    (pmfsForwardJournal sbi).exec s = ({ s with
      genId := nextGenId s.genId
      head := s.tail
      area := passed s.genId s.area s.tail ((sbi.jsize - s.tail) / 64) }, .ok ()) := by
  unfold pmfsForwardJournal passed
  simp only [Prog.exec]
  by_cases hx : s.genId = maxGenId
  · simp only [hx, if_true, Prog.exec_bind, exec_invalidateRemainingJournal]
    rfl
  · simp only [hx, if_false, Prog.exec_bind]
    rfl

/-- The loop over the whole journal, followed by `pmfs_forward_journal`. -/
theorem exec_pmfsRecoverUndoJournal {sbi : SbInfo} {s t : Image} {fuel : Nat} {genId : UInt16}
    (hl : (recoverLoop sbi s.head (sbi.slots + 1) s.tail s.genId).exec s =
      (recoverLoop sbi s.head (fuel + 1) s.head genId).exec t) :
    ∃ u, (pmfsRecoverUndoJournal sbi).exec s = (u, .ok ()) ∧ u.mem = t.mem := by
  have hend : recoverLoop sbi s.head (fuel + 1) s.head genId = .ret () := if_pos rfl
  rw [hend] at hl
  refine ⟨((pmfsForwardJournal sbi).exec t).1, ?_, by rw [exec_pmfsForwardJournal]⟩
  simp only [pmfsRecoverUndoJournal, Prog.exec, Prog.exec_bind, hl]
  rw [exec_pmfsForwardJournal]

theorem Scanned.eq_nil {sbi : SbInfo} {head a b : Nat} {genId : UInt16} {area : Nat → LogEntry}
    {log : List (Patch Nat UInt8)} (h : Scanned sbi head genId area a b log) (hab : a = b) :
    log = [] := by
  cases h with
  | nil => rfl
  | unused h _ =>
    have := h.add_le
    omega
  | walk h _ _ _ hle _ =>
    have := h.add_le
    omega

/-- Recovery of a journal that has not wrapped. -/
theorem exec_pmfsRecoverJournal {sbi : SbInfo} {s : Image} {log : List (Patch Nat UInt8)}
    (h : Scanned sbi s.head s.genId s.area s.head s.tail log) (hsize : s.tail ≤ sbi.jsize) :
    ∃ t, (pmfsRecoverJournal sbi).exec s = (t, .ok ()) ∧ t.mem = undo log s.mem := by
  rcases h.add_le with he | hlt
  · refine ⟨s, ?_, by rw [h.eq_nil he]; rfl⟩
    simp only [pmfsRecoverJournal, Prog.exec, if_pos he]
  · have hslots : (s.tail - s.head) / 64 ≤ sbi.slots := by
      unfold SbInfo.slots
      omega
    obtain ⟨fuel, t, he, hf, -, hm, -⟩ := exec_recoverLoop h (sbi.slots + 1)
      s.tail s.genId s (fun _ _ => rfl) (by omega)
      (fun c h1 _ => by omega) (fun h => by omega)
      (fun _ => ⟨by omega, by rw [prevLogEntry_of_pos (by omega)]; omega,
        by rw [if_neg (by omega)]⟩)
    obtain ⟨fuel, rfl⟩ : ∃ f, fuel = f + 1 := ⟨fuel - 1, by omega⟩
    obtain ⟨u, hu, hum⟩ := exec_pmfsRecoverUndoJournal he
    refine ⟨u, ?_, hum.trans hm⟩
    simp only [pmfsRecoverJournal, Prog.exec]
    rw [if_neg (by omega), hu]

/-- Recovery of a wrapped journal. -/
theorem exec_pmfsRecoverJournal_wrapped {sbi : SbInfo} {s : Image}
    {log₁ log₂ : List (Patch Nat UInt8)} (hlt : s.tail < s.head) (hsize : s.head < sbi.jsize)
    (h₂ : Scanned sbi s.head s.genId s.area 0 s.tail log₂)
    (h₁ : ∀ area, (∀ le, s.head ≤ le → area le = s.area le) →
      Scanned sbi s.head (prevGenId s.genId) area s.head sbi.jsize log₁) :
    ∃ t, (pmfsRecoverJournal sbi).exec s = (t, .ok ()) ∧
      t.mem = undo log₁ (undo log₂ s.mem) := by
  obtain ⟨fuel₂, u, he₂, hf₂, hu, hum, hua, -⟩ := exec_recoverLoop h₂ (sbi.slots + 1)
    s.tail s.genId s (fun _ _ => rfl)
    (by unfold SbInfo.slots; omega) (fun c h1 _ => by omega) (fun h => ⟨h.symm, rfl⟩)
    (fun _ => ⟨by omega, by rw [prevLogEntry_of_pos (by omega)]; have := h₂.add_le; omega,
      by rw [if_neg (by omega)]⟩)
  have hseg := h₁ u.area fun le hle => hua le (by omega)
  have hseg' := hseg.add_le
  have hslots : (s.tail - 0) / 64 + (sbi.jsize - s.head) / 64 ≤ sbi.slots := by
    unfold SbInfo.slots
    omega
  obtain ⟨fuel₁, t, he₁, hf₁, -, htm, -⟩ := exec_recoverLoop hseg fuel₂
    0 s.genId u (fun _ _ => rfl) (by omega) (fun c h1 _ => by omega)
    (fun h => by omega)
    (fun _ => ⟨by omega, by rw [prevLogEntry_zero]; omega, if_pos rfl⟩)
  obtain ⟨fuel₁, rfl⟩ : ∃ f, fuel₁ = f + 1 := ⟨fuel₁ - 1, by omega⟩
  obtain ⟨v, hv, hvm⟩ := exec_pmfsRecoverUndoJournal (he₂.trans he₁)
  refine ⟨v, ?_, by rw [hvm, htm, hum]⟩
  simp only [pmfsRecoverJournal, Prog.exec]
  rw [if_neg (by omega), hv]

end Wpmfs.Journal
