import Mathlib.Logic.Relation
import Wpmfs.Journal.Scan
import Wpmfs.Journal.Survey

/-!
# Recovery that is interrupted

A failure may interrupt recovery, and the next mount then recovers what that has left. In all
generations but the largest one nothing in the area changes, and undoing a transaction again does no
harm. In the largest one the entries of a transaction are invalidated from its start record on: what
is left of it has no start, and the walk goes on below it.

`Replays` describes a stretch of the journal that recovery may be interrupted on any number of
times; `m` is the memory that it is to lead to.
-/

namespace Wpmfs.Journal

open Persist UndoLog

/-- The walk of the transaction `tid` that gets down to `y` ends there, and not in the `BUG_ON`: it
is the lower end of the stretch, or the entry below finishes another transaction. -/
def Stops (genId : UInt16) (area : Nat → LogEntry) (a y : Nat) (tid : UInt32) : Prop :=
  y = a ∨ a + 64 ≤ y ∧ (area (y - 64)).genId = genId ∧ (area (y - 64)).isFinish = true ∧
    (area (y - 64)).transactionId ≠ tid

/-- Without its start record the `n` entries from `x` on are not taken for a part of a transaction
below them. -/
def Detached (sbi : SbInfo) (genId : UInt16) (area : Nat → LogEntry) (a x n : Nat) : Prop :=
  ∃ k, a + 64 * k ≤ x ∧ k + n ≤ sbi.slots ∧ k + n < 2 ^ 16 ∧
    (∀ i < k, (area (x - 64 * k + 64 * i)).genId ≠ genId) ∧
    Stops genId area a (x - 64 * k) (area (x + 64 * (n - 1))).transactionId

/-- A stretch of the journal that recovery may pass again and again on its way to the memory `m`.
`log` is what it undoes, oldest first. -/
inductive Replays (sbi : SbInfo) (genId : UInt16) (m : Nat → UInt8) (area : Nat → LogEntry)
    (a : Nat) : Nat → List (Patch Nat UInt8) → Prop where
  | nil : Replays sbi genId m area a a []
  | unused {b log} : Replays sbi genId m area a b log → (area b).genId ≠ genId →
      Replays sbi genId m area a (b + 64) log
  /-- The entries of a transaction. -/
  | region {x n finished log} : Replays sbi genId m area a x log →
      (⟨x, n, n, finished⟩ : Region).Valid sbi genId area → 0 < n → n ≤ sbi.slots →
      undo ((⟨x, n, n, finished⟩ : Region).log sbi genId area) m = m →
      (genId = maxGenId → Detached sbi genId area a x n) →
      Replays sbi genId m area a (x + 64 * n)
        (log ++ (⟨x, n, n, finished⟩ : Region).log sbi genId area)
  /-- What is left of one whose start record is invalid. -/
  | rest {y n log} : Replays sbi genId m area a y log → 0 < n → n ≤ sbi.slots → n < 2 ^ 16 →
      (∀ i < n, (area (y + 64 * i)).genId = genId → (area (y + 64 * i)).isStart = false) →
      (∀ i, i + 1 < n → (area (y + 64 * i)).genId = genId →
        (area (y + 64 * i)).isFinish = false) →
      (area (y + 64 * (n - 1))).genId = genId →
      Stops genId area a y (area (y + 64 * (n - 1))).transactionId →
      Replays sbi genId m area a (y + 64 * n) log

variable {sbi : SbInfo} {genId g : UInt16} {m : Nat → UInt8} {area area' : Nat → LogEntry}
  {a b x y n k head tail fuel c : Nat} {log : List (Patch Nat UInt8)} {tid : UInt32}
  {s t u : Image} {E : Set Nat}

/-! ## Stretches -/

theorem Replays.dvd (h : Replays sbi genId m area a b log) : a ≤ b ∧ 64 ∣ b - a := by
  induction h with
  | nil => simp
  | unused _ _ ih => omega
  | region _ _ _ _ _ _ ih => omega
  | rest _ _ _ _ _ _ _ _ ih => omega

theorem Replays.unusedRun (h : Replays sbi genId m area a b log)
    (hu : ∀ i < n, (area (b + 64 * i)).genId ≠ genId) :
    Replays sbi genId m area a (b + 64 * n) log := by
  induction n with
  | zero => exact h
  | succ n ih => exact (ih fun i hi => hu i (by omega)).unused (hu n (by omega))

/-- Unused slots at the upper end may be left away. -/
theorem Replays.shrink (h : Replays sbi genId m area a (b + 64 * k) log) (hab : a ≤ b)
    (hu : ∀ i < k, (area (b + 64 * i)).genId ≠ genId) : Replays sbi genId m area a b log := by
  induction k with
  | zero => exact h
  | succ k ih =>
    refine ih ?_ fun i hi => hu i (by omega)
    have hlast := hu k (by omega)
    generalize hc : b + 64 * (k + 1) = c at h
    cases h with
    | nil => omega
    | @unused b' _ h _ =>
      obtain rfl : b' = b + 64 * k := by omega
      exact h
    | @region x n _ _ _ hv hn =>
      have hgen := hv.gen (n - 1) (by dsimp only; omega)
      have hat : x + 64 * (n - 1) = b + 64 * k := by omega
      dsimp only at hgen
      exact absurd (hat ▸ hgen) hlast
    | @rest y n _ _ hn _ _ _ _ hgen =>
      have hat : y + 64 * (n - 1) = b + 64 * k := by omega
      exact absurd (hat ▸ hgen) hlast

theorem Stops.congr (h : Stops genId area a y tid)
    (he : ∀ le, a ≤ le → le < y → area' le = area le) :
    Stops genId area' a y tid := by
  rcases h with rfl | ⟨hle, hrest⟩
  · exact .inl rfl
  · rw [Stops, he (y - 64) (by omega) (by omega)]
    exact .inr ⟨hle, hrest⟩

theorem Detached.congr (h : Detached sbi genId area a x n) (hn : 0 < n)
    (he : ∀ le, a ≤ le → le < x + 64 * n → area' le = area le) :
    Detached sbi genId area' a x n := by
  obtain ⟨k, hle, hslots, hlt, hu, hstops⟩ := h
  refine ⟨k, hle, hslots, hlt, fun i hi => ?_, ?_⟩
  · rw [he _ (by omega) (by omega)]
    exact hu i hi
  · rw [he (x + 64 * (n - 1)) (by omega) (by omega)]
    exact hstops.congr fun le h1 h2 => he le h1 (by omega)

theorem Replays.congr (h : Replays sbi genId m area a b log)
    (he : ∀ le, a ≤ le → le < b → area' le = area le) : Replays sbi genId m area' a b log := by
  induction h with
  | nil => exact .nil
  | @unused b _ h hu ih =>
    have := h.dvd
    refine (ih fun le h1 h2 => he le h1 (by omega)).unused ?_
    rwa [he b (by omega) (by omega)]
  | @region x n finished log h hv hn hslots hundo hdet ih =>
    have := h.dvd
    obtain ⟨hv', hlog⟩ := hv.congr fun i hi => he (x + 64 * i) (by omega) (by dsimp at hi; omega)
    rw [← hlog] at hundo ⊢
    exact (ih fun le h1 h2 => he le h1 (by omega)).region hv' hn hslots hundo
      fun hg => (hdet hg).congr hn he
  | @rest y n log h hn hslots hlt hs hf hgen hstops ih =>
    have := h.dvd
    have hlast := he (y + 64 * (n - 1)) (by omega) (by omega)
    refine (ih fun le h1 h2 => he le h1 (by omega)).rest hn hslots hlt (fun i hi => ?_)
      (fun i hi => ?_) ?_ ?_
    · rw [he _ (by omega) (by omega)]
      exact hs i hi
    · rw [he _ (by omega) (by omega)]
      exact hf i hi
    · rwa [hlast]
    · rw [hlast]
      exact hstops.congr fun le h1 h2 => he le h1 (by omega)

/-- What is undone gets the values of `m`. -/
theorem Replays.undo_eq (h : Replays sbi genId m area a b log) : undo log m = m := by
  induction h with
  | nil => rfl
  | unused _ _ ih => exact ih
  | region _ _ _ _ hundo _ ih => rw [undo_append, hundo, ih]
  | rest _ _ _ _ _ _ _ _ ih => exact ih

/-! ## The walk of a transaction without a start -/

/-- The walk of what is left of a transaction. -/
theorem recoverWalk_rest (ha : a = 0 ∨ a = head) (hhead : head ≤ a ∨ y + 64 * n ≤ head)
    (hay : a ≤ y)
    (hs : ∀ i < n, (area (y + 64 * i)).genId = genId → (area (y + 64 * i)).isStart = false)
    (hf : ∀ i, i + 1 < n → (area (y + 64 * i)).genId = genId →
      (area (y + 64 * i)).isFinish = false)
    (hstops : Stops genId area a y tid) {i : Nat} {cmt : Bool} (hi : i < n) (hfuel : i < fuel)
    (hk : k + i + 1 < 2 ^ 16) :
    ∃ cmt', recoverWalk area sbi.jsize head genId tid fuel (y + 64 * i) k cmt =
      .ok ⟨y, k + i + 1, false, cmt'⟩ := by
  induction i generalizing fuel k cmt with
  | zero =>
    obtain ⟨fuel, rfl⟩ : ∃ f, fuel = f + 1 := ⟨fuel - 1, by omega⟩
    have hmod : (k + 1) % 2 ^ 16 = k + 1 := Nat.mod_eq_of_lt hk
    have hstart : (genId == (area y).genId && (area y).isStart) = false := by
      by_cases hg : (area y).genId = genId
      · simp [show (area y).isStart = false from hs 0 hi hg]
      · simp [Ne.symm hg]
    simp only [Nat.mul_zero, Nat.add_zero]
    rw [recoverWalk]
    simp only [hmod, hstart]
    rw [if_neg (by simp)]
    by_cases hend : y = 0 ∨ y = head
    · rw [if_pos hend]
      exact ⟨_, rfl⟩
    · rw [if_neg hend]
      rcases hstops with rfl | ⟨-, hgen, hfin, htid⟩
      · exact absurd ha hend
      · rw [if_pos (by simp [hgen, hfin]), if_neg (by simpa using Ne.symm htid)]
        exact ⟨_, rfl⟩
  | succ i ih =>
    obtain ⟨fuel, rfl⟩ : ∃ f, fuel = f + 1 := ⟨fuel - 1, by omega⟩
    have hmod : (k + 1) % 2 ^ 16 = k + 1 := Nat.mod_eq_of_lt (by omega)
    have hprev : y + 64 * (i + 1) - 64 = y + 64 * i := by omega
    have hstart : (genId == (area (y + 64 * (i + 1))).genId &&
        (area (y + 64 * (i + 1))).isStart) = false := by
      by_cases hg : (area (y + 64 * (i + 1))).genId = genId
      · simp [hs _ hi hg]
      · simp [Ne.symm hg]
    have hfin : (genId == (area (y + 64 * i)).genId && (area (y + 64 * i)).isFinish) = false := by
      by_cases hg : (area (y + 64 * i)).genId = genId
      · simp [hf i hi hg]
      · simp [Ne.symm hg]
    rw [recoverWalk]
    simp only [hmod, hstart, hprev, hfin, prevLogEntry_of_pos (show 0 < y + 64 * (i + 1) by omega)]
    rw [if_neg (by simp), if_neg (by omega), if_neg (by simp)]
    have hsum : k + (i + 1) + 1 = k + 1 + i + 1 := by omega
    rw [hsum]
    exact ih (by omega) (by omega) (by omega)

/-! ## Cut-offs of one transaction -/

/-- Invalidating entries is cut off after some of them. -/
theorem crash_invalidate {le : Nat → Nat} {start : Nat} (hle : ∀ i < n, le i = start + 64 * i)
    (hc : (Prog.forRange (fun i _ => invalidateGenId (le i)) n ()).CrashState s u) :
    ∃ k ≤ n, u = { s with area := clearGenIds s.area start k } := by
  induction n with
  | zero => exact ⟨0, le_rfl, hc⟩
  | succ n ih =>
    have hexec : (Prog.forRange (fun i _ => invalidateGenId (le i)) n ()).exec s =
        ({ s with area := clearGenIds s.area start n }, .ok ()) := by
      have hn : ∀ i < n, le i = start + 64 * i := fun i hi => hle i (by omega)
      clear ih hc hle
      induction n with
      | zero => rfl
      | succ n ih =>
        rw [Prog.forRange, Prog.exec_bind, ih fun i hi => hn i (by omega), hn n (by omega)]
        rfl
    rw [Prog.forRange, Prog.crashState_bind] at hc
    rcases hc with hc | ⟨v, _, he, hc⟩
    · obtain ⟨k, hk, hu⟩ := ih (fun i hi => hle i (by omega)) hc
      exact ⟨k, by omega, hu⟩
    · rw [hexec] at he
      cases he
      rcases hc with rfl | hc
      · exact ⟨n, by omega, rfl⟩
      · refine ⟨n + 1, le_rfl, ?_⟩
        rw [hle n (by omega)] at hc
        exact hc

/-- Undoing a transaction is cut off: only bytes of its log have changed. -/
theorem crash_undo {trans : Transaction}
    (hm : ∀ i < trans.numUsed, (s.area (trans.le i)).genId = trans.genId →
      Mapped sbi (s.area (trans.le i)))
    (hc : (pmfsUndoTransaction sbi trans).CrashState s u) :
    u = { s with mem := u.mem } ∧
      ∀ x, x ∉ dom (logOf sbi trans.genId s.area trans.start trans.numUsed) →
        u.mem x = s.mem x := by
  have hsafe := safe_pmfsUndoTransaction (L := Set.univ) (s := s) (fun _ _ => trivial) hm
  let I : Image → Prop := fun u => u = { s with mem := u.mem } ∧
    ∀ x, x ∉ dom (logOf sbi trans.genId s.area trans.start trans.numUsed) → u.mem x = s.mem x
  have hinv := hsafe.invariant (I := I)
    (fun {v w} (hst : AgreeOn Set.univ v w) h => hst.eq_of_univ ▸ h)
    (fun {v w} hvw h => by
      obtain ⟨z, hz, d, rfl⟩ := hvw
      refine ⟨by rw [h.1], fun x hx => ?_⟩
      rw [← h.2 x hx]
      exact Function.update_of_ne (by rintro rfl; exact hx hz) ..) ⟨rfl, fun _ _ => rfl⟩
  exact Prog.Safe.crash (I := I) (hinv.mono (fun h => h ▸ AgreeOn.refl _) And.right id)
    ⟨rfl, fun _ _ => rfl⟩ hc

/-- The recovery of one transaction is cut off while it is undone, or while its entries are
invalidated. -/
theorem crash_pmfsRecoverTransaction {w : Walk}
    (hw : recoverWalk s.area sbi.jsize head (s.area tail).genId (s.area tail).transactionId
      (sbi.slots + 1) tail 0 false = .ok w)
    (hm : w.Mapped sbi (s.area tail).genId s.area)
    (hc : (pmfsRecoverTransaction sbi head tail).CrashState s u) :
    (u = { s with mem := u.mem } ∧
      ∀ x, x ∉ dom (w.log sbi (s.area tail).genId s.area) → u.mem x = s.mem x) ∨
    (s.area tail).genId = maxGenId ∧ ∃ k ≤ w.numEntries, u = { s with
      mem := undo (w.log sbi (s.area tail).genId s.area) s.mem
      area := clearGenIds s.area w.tail k } := by
  have hlast : ∀ {v : Image} {trans : Transaction}, trans.start = w.tail →
      trans.numEntries = w.numEntries →
      (if (s.area tail).genId = maxGenId then do
        pmfsInvalidateLogentries trans
        .ret w.tail
      else .ret w.tail : JProg Nat).CrashState v u →
      u = v ∨ (s.area tail).genId = maxGenId ∧ ∃ k ≤ w.numEntries, u = { v with
        area := clearGenIds v.area w.tail k } := by
    intro v trans hstart hnum hc
    by_cases hx : (s.area tail).genId = maxGenId
    · rw [if_pos hx, Prog.crashState_bind] at hc
      rcases hc with hc | ⟨v', _, he, hc⟩
      · rw [← hstart, ← hnum]
        exact .inr ⟨hx, crash_invalidate (fun _ _ => rfl) hc⟩
      · rw [exec_pmfsInvalidateLogentries] at he
        cases he
        rw [← hstart, ← hnum]
        exact .inr ⟨hx, _, le_rfl, hc⟩
    · rw [if_neg hx] at hc
      exact .inl hc
  unfold pmfsRecoverTransaction at hc
  simp only [Prog.CrashState, hw] at hc
  by_cases hu : (w.startFound && !w.cmtOrAbrtFound) = true
  · rw [if_pos hu, Prog.crashState_bind] at hc
    have hlog : w.log sbi (s.area tail).genId s.area =
        logOf sbi (s.area tail).genId s.area w.tail w.numEntries := if_pos hu
    rw [hlog]
    rcases hc with hc | ⟨v, _, he, hc⟩
    · exact .inl (crash_undo (hm hu) hc)
    · rw [exec_pmfsUndoTransaction (hm hu)] at he
      cases he
      rcases hlast rfl rfl hc with rfl | hk
      · exact .inl ⟨rfl, fun x hx => undo_of_notMem hx⟩
      · exact .inr hk
  · rw [if_neg hu] at hc
    have hlog : w.log sbi (s.area tail).genId s.area = [] := if_neg hu
    rw [hlog, undo_nil]
    rcases hlast rfl rfl hc with rfl | hk
    · exact .inl ⟨rfl, fun _ _ => rfl⟩
    · exact .inr hk

/-! ## Cut-offs of the loop -/

theorem crash_recoverLoop_unused (hne : head ≠ tail) (hc : prevLogEntry sbi.jsize tail = c)
    (hg : (if tail = 0 then prevGenId g else g) = genId) (hs : (s.area c).genId ≠ genId)
    (h : (recoverLoop sbi head (fuel + 1) tail g).CrashState s u) :
    u = s ∨ (recoverLoop sbi head fuel c genId).CrashState
      { s with area := passed genId s.area c 1 } u := by
  rw [recoverLoop, if_neg hne] at h
  simp only [hc, hg, Prog.CrashState] at h
  rw [if_neg (by simpa using Ne.symm hs)] at h
  unfold passed
  by_cases hx : genId = maxGenId
  · rw [if_pos hx] at h ⊢
    exact h
  · rw [if_neg hx] at h ⊢
    exact .inr h

theorem crash_recoverLoop_walk {w : Walk} (hne : head ≠ tail)
    (hc : prevLogEntry sbi.jsize tail = c)
    (hg : (if tail = 0 then prevGenId g else g) = genId) (hs : (s.area c).genId = genId)
    (hw : recoverWalk s.area sbi.jsize head genId (s.area c).transactionId (sbi.slots + 1) c 0
      false = .ok w) (hm : w.Mapped sbi genId s.area)
    (h : (recoverLoop sbi head (fuel + 1) tail g).CrashState s u) :
    (u = { s with mem := u.mem } ∧
      ∀ x, x ∉ dom (w.log sbi genId s.area) → u.mem x = s.mem x) ∨
    (genId = maxGenId ∧ ∃ k ≤ w.numEntries, u = { s with
      mem := undo (w.log sbi genId s.area) s.mem
      area := clearGenIds s.area w.tail k }) ∨
    (recoverLoop sbi head fuel w.tail genId).CrashState { s with
      mem := undo (w.log sbi genId s.area) s.mem
      area := passed genId s.area w.tail w.numEntries } u := by
  subst hs
  rw [recoverLoop, if_neg hne] at h
  simp only [hc, hg, Prog.CrashState] at h
  rw [if_pos (by simp), Prog.crashState_bind] at h
  rcases h with h | ⟨v, _, he, h⟩
  · rcases crash_pmfsRecoverTransaction hw hm h with h | h
    · exact .inl h
    · exact .inr (.inl h)
  · rw [exec_pmfsRecoverTransaction hw hm] at he
    cases he
    exact .inr (.inr h)

/-- Recovery of the stretch was cut off, or has passed it: it may be done again. `E` are bytes that
are dealt with later. -/
structure Cut (sbi : SbInfo) (genId : UInt16) (m : Nat → UInt8) (E : Set Nat) (a b : Nat)
    (log : List (Patch Nat UInt8)) (s u : Image) : Prop where
  same : u = { s with mem := u.mem, area := u.area }
  outside : ∀ le, le < a ∨ b ≤ le → u.area le = s.area le
  fades : ∀ le, (u.area le).genId = (s.area le).genId ∨ (u.area le).genId = 0
  kept : genId ≠ maxGenId → u.area = s.area
  left : ∃ log', Replays sbi genId m u.area a b log' ∧ dom log' ⊆ dom log ∧
    ∀ x, x ∉ dom log' → x ∉ E → u.mem x = m x

/-- Recovery has passed the stretch. -/
structure PassedBy (sbi : SbInfo) (genId : UInt16) (m : Nat → UInt8) (E : Set Nat) (a b : Nat)
    (log : List (Patch Nat UInt8)) (s u : Image) : Prop
    extends Cut sbi genId m E a b log s u where
  mem : ∀ x, x ∉ E → u.mem x = m x
  clear : genId = maxGenId → ∀ i, a + 64 * i < b → (u.area (a + 64 * i)).genId = 0

theorem passed_genId (genId : UInt16) (area : Nat → LogEntry) (x n le : Nat) :
    (passed genId area x n le).genId = (area le).genId ∨ (passed genId area x n le).genId = 0 := by
  unfold passed
  split
  · exact clearGenIds_genId area x n le
  · exact .inl rfl

theorem clearGenIds_of_lt {i : Nat} (hi : i < n) :
    (clearGenIds area x n (x + 64 * i)).genId = 0 := by
  induction n with
  | zero => omega
  | succ n ih =>
    rw [clearGenIds]
    by_cases h : i = n
    · subst h
      simp
    · rw [Function.update_of_ne (by omega)]
      exact ih (by omega)

theorem passed_of_lt {i : Nat} (hg : genId = maxGenId) (hi : i < n) :
    (passed genId area x n (x + 64 * i)).genId = 0 := by
  rw [passed, if_pos hg]
  exact clearGenIds_of_lt hi

theorem zero_ne_maxGenId : (0 : UInt16) ≠ maxGenId := by decide

/-- What was cut off below `x`, seen from before the `n` entries from `x` on were passed. -/
theorem Cut.lift {log₀ : List (Patch Nat UInt8)} {mem : Nat → UInt8}
    (h : Cut sbi genId m E a x log₀ { s with mem := mem, area := passed genId s.area x n } u)
    (hax : a ≤ x) (hdom : dom log₀ ⊆ dom log)
    (hold : Replays sbi genId m s.area a (x + 64 * n) log) :
    Cut sbi genId m E a (x + 64 * n) log s u := by
  obtain ⟨hs, hout, hfades, hkept, log', hlog, hsub, hmem⟩ := h
  have hpass : ∀ le, le < x ∨ x + 64 * n ≤ le → passed genId s.area x n le = s.area le :=
    fun le hle => passed_of_notMem hle
  refine ⟨hs, fun le hle => ?_, fun le => ?_, fun hg => ?_, ?_⟩
  · rw [hout le (by omega)]
    exact hpass le (by omega)
  · rcases hfades le with hle | hle
    · rw [hle]
      exact passed_genId ..
    · exact .inr hle
  · rw [hkept hg]
    exact if_neg hg
  · by_cases hg : genId = maxGenId
    · refine ⟨log', hlog.unusedRun fun i hi => ?_, hsub.trans hdom, hmem⟩
      rw [hout _ (by omega)]
      dsimp only
      rw [passed_of_lt hg hi, hg]
      exact zero_ne_maxGenId
    · have harea : u.area = s.area := (hkept hg).trans (if_neg hg)
      exact ⟨log, harea ▸ hold, subset_rfl, fun z hz => hmem z fun hin => hz (hdom (hsub hin))⟩

theorem Cut.header (h : Cut sbi genId m E a b log s u) :
    u.head = s.head ∧ u.tail = s.tail ∧ u.genId = s.genId := by
  rw [h.same]
  exact ⟨rfl, rfl, rfl⟩

/-- The same when all of it was passed. -/
theorem PassedBy.lift {log₀ : List (Patch Nat UInt8)} {mem : Nat → UInt8}
    (h : PassedBy sbi genId m E a x log₀ { s with mem := mem, area := passed genId s.area x n } u)
    (hax : a ≤ x) (hdvd : 64 ∣ x - a) (hdom : dom log₀ ⊆ dom log)
    (hold : Replays sbi genId m s.area a (x + 64 * n) log) :
    PassedBy sbi genId m E a (x + 64 * n) log s u := by
  refine ⟨h.toCut.lift hax hdom hold, h.mem, fun hg i hi => ?_⟩
  by_cases hlt : a + 64 * i < x
  · exact h.clear hg i hlt
  · obtain ⟨j, hj⟩ : ∃ j, a + 64 * i = x + 64 * j := ⟨(a + 64 * i - x) / 64, by omega⟩
    rw [hj, h.outside _ (by omega)]
    exact passed_of_lt hg (by omega)

/-- A transaction with some of its entries invalid is passed without an undo. -/
theorem Replays.detach {finished : Bool} (h : Replays sbi genId m area a x log)
    (hv : (⟨x, n, n, finished⟩ : Region).Valid sbi genId area) (hn : 0 < n)
    (hdet : Detached sbi genId area a x n) (hg : genId = maxGenId) (hk : 0 < k) (hkn : k ≤ n) :
    Replays sbi genId m (clearGenIds area x k) a (x + 64 * n) log := by
  have hax := h.dvd
  have hcleared : ∀ i < k, (clearGenIds area x k (x + 64 * i)).genId ≠ genId := fun i hi => by
    rw [clearGenIds_of_lt hi, hg]
    exact zero_ne_maxGenId
  have hsame : ∀ le, le < x ∨ x + 64 * k ≤ le → clearGenIds area x k le = area le :=
    fun le hle => clearGenIds_of_notMem fun i hi => by omega
  by_cases hall : k = n
  · subst hall
    exact (h.congr fun le _ hlt => hsame le (.inl hlt)).unusedRun hcleared
  obtain ⟨j, hle, hslots, hlt, hu, hstops⟩ := hdet
  have hx : x = x - 64 * j + 64 * j := by omega
  have hlow : Replays sbi genId m area a (x - 64 * j) log :=
    @Replays.shrink _ _ _ _ _ _ j _ (hx ▸ h) (by omega) hu
  have hlast : x - 64 * j + 64 * (j + n - 1) = x + 64 * (n - 1) := by omega
  have hend : x - 64 * j + 64 * (j + n) = x + 64 * n := by omega
  have hentry : ∀ i, (clearGenIds area x k (x - 64 * j + 64 * i)).genId = genId → i < j + n →
      clearGenIds area x k (x - 64 * j + 64 * i) = area (x + 64 * (i - j)) ∧ j + k ≤ i := by
    intro i hgen hi
    by_cases hij : i < j
    · rw [hsame _ (by omega)] at hgen
      exact absurd hgen (hu i hij)
    · have hat : x - 64 * j + 64 * i = x + 64 * (i - j) := by omega
      rw [hat] at hgen ⊢
      by_cases hik : i - j < k
      · exact absurd hgen (hcleared _ hik)
      · exact ⟨hsame _ (by omega), by omega⟩
  rw [← hend]
  refine (hlow.congr fun le _ hlt => hsame le (by omega)).rest (by omega) hslots hlt
    (fun i hi hgen => ?_) (fun i hi hgen => ?_) ?_ ?_
  · obtain ⟨he, hki⟩ := hentry i hgen hi
    rw [he, hv.isStart (i - j) (by dsimp only; omega)]
    exact decide_eq_false (by omega)
  · obtain ⟨he, hki⟩ := hentry i hgen (by omega)
    have hne : i - j + 1 ≠ n := by omega
    rw [he, hv.isFinish (i - j) (by dsimp only; omega)]
    simp [hne]
  · rw [hlast, hsame _ (by omega)]
    exact hv.gen (n - 1) (by dsimp only; omega)
  · rw [hlast, hsame (x + 64 * (n - 1)) (by omega)]
    exact hstops.congr fun le _ hlt => hsame le (by omega)

/-- Further entries of what is left of a transaction become invalid. -/
theorem Replays.rest_clear (h : Replays sbi genId m area a y log) (hn : 0 < n)
    (hslots : n ≤ sbi.slots) (hlt : n < 2 ^ 16)
    (hs : ∀ i < n, (area (y + 64 * i)).genId = genId → (area (y + 64 * i)).isStart = false)
    (hf : ∀ i, i + 1 < n → (area (y + 64 * i)).genId = genId →
      (area (y + 64 * i)).isFinish = false)
    (hgen : (area (y + 64 * (n - 1))).genId = genId)
    (hstops : Stops genId area a y (area (y + 64 * (n - 1))).transactionId)
    (hg : genId = maxGenId) (hkn : k ≤ n) :
    Replays sbi genId m (clearGenIds area y k) a (y + 64 * n) log := by
  have hcleared : ∀ i < k, (clearGenIds area y k (y + 64 * i)).genId ≠ genId := fun i hi => by
    rw [clearGenIds_of_lt hi, hg]
    exact zero_ne_maxGenId
  have hsame : ∀ le, le < y ∨ y + 64 * k ≤ le → clearGenIds area y k le = area le :=
    fun le hle => clearGenIds_of_notMem fun i hi => by omega
  have hlow := h.congr fun le _ hlt => hsame le (.inl hlt)
  by_cases hall : k = n
  · subst hall
    exact hlow.unusedRun hcleared
  have hentry : ∀ i, (clearGenIds area y k (y + 64 * i)).genId = genId →
      clearGenIds area y k (y + 64 * i) = area (y + 64 * i) := by
    intro i hgen
    by_cases hik : i < k
    · exact absurd hgen (hcleared i hik)
    · exact hsame _ (by omega)
  have hlast : clearGenIds area y k (y + 64 * (n - 1)) = area (y + 64 * (n - 1)) :=
    hsame _ (by omega)
  refine hlow.rest hn hslots hlt (fun i hi hig => ?_) (fun i hi hig => ?_) ?_ ?_
  · have he := hentry i hig
    rw [he] at hig ⊢
    exact hs i hi hig
  · have he := hentry i hig
    rw [he] at hig ⊢
    exact hf i hi hig
  · rwa [hlast]
  · rw [hlast]
    exact hstops.congr fun le _ hlt => hsame le (.inl hlt)

theorem Cut.of_mem {mem : Nat → UInt8} (hold : Replays sbi genId m s.area a b log)
    (hu : u = { s with mem := mem }) (hmem : ∀ x, x ∉ dom log → x ∉ E → mem x = m x) :
    Cut sbi genId m E a b log s u := by
  subst hu
  exact ⟨rfl, fun _ _ => rfl, fun _ => .inl rfl, fun _ => rfl, log, hold, subset_rfl, hmem⟩

theorem Cut.of_clear {log₀ : List (Patch Nat UInt8)} {mem : Nat → UInt8} (hax : a ≤ x)
    (hk : k ≤ n) (hg : genId = maxGenId) (hdom : dom log₀ ⊆ dom log)
    (hnew : Replays sbi genId m (clearGenIds s.area x k) a (x + 64 * n) log₀)
    (hu : u = { s with mem := mem, area := clearGenIds s.area x k })
    (hmem : ∀ z, z ∉ dom log₀ → z ∉ E → mem z = m z) :
    Cut sbi genId m E a (x + 64 * n) log s u := by
  subst hu
  exact ⟨rfl, fun le hle => clearGenIds_of_notMem fun i hi => by omega,
    clearGenIds_genId s.area x k, fun hne => absurd hg hne, log₀, hnew, hdom, hmem⟩

/-- The loop on a stretch that it enters from `tail`: it gets to the lower end, and wherever it is
cut off, what it has left of the stretch may be done again. -/
theorem Replays.recoverLoop (h : Replays sbi genId m area a b log) (ha : a = 0 ∨ a = head)
    (hhead : head ≤ a ∨ b ≤ head) (fuel tail : Nat) (g : UInt16) (s : Image)
    (harea : ∀ le < b, s.area le = area le) (hfuel : (b - a) / 64 ≤ fuel)
    (hnil : a = b → tail = a ∧ g = genId)
    (henter : a < b → head ≠ tail ∧ prevLogEntry sbi.jsize tail + 64 = b ∧
      (if tail = 0 then prevGenId g else g) = genId)
    (hmem : ∀ x, x ∉ dom log → x ∉ E → s.mem x = m x) :
    ∃ fuel' t, (recoverLoop sbi head fuel tail g).exec s =
        (recoverLoop sbi head fuel' a genId).exec t ∧
      fuel ≤ fuel' + (b - a) / 64 ∧ PassedBy sbi genId m E a b log s t ∧
      ∀ u, (recoverLoop sbi head fuel tail g).CrashState s u →
        Cut sbi genId m E a b log s u ∨ (recoverLoop sbi head fuel' a genId).CrashState t u := by
  have hold := h.congr fun le _ hlt => harea le hlt
  induction h generalizing fuel tail g s with
  | nil =>
    obtain ⟨rfl, rfl⟩ := hnil rfl
    refine ⟨fuel, s, rfl, by omega, ⟨.of_mem hold rfl hmem, ?_, fun _ i hi => by omega⟩,
      fun u hu => .inr hu⟩
    simpa using hmem
  | @unused b log hb hu ih =>
    have hle := hb.dvd
    obtain ⟨hne, hc, hg⟩ := henter (by omega)
    have hc : prevLogEntry sbi.jsize tail = b := by omega
    obtain ⟨fuel, rfl⟩ : ∃ f, fuel = f + 1 := ⟨fuel - 1, by omega⟩
    have hsu : (s.area b).genId ≠ genId := by rwa [harea b (by omega)]
    have hpa : ∀ le, le < b → passed genId s.area b 1 le = s.area le :=
      fun le hle => passed_of_notMem (.inl hle)
    obtain ⟨fuel', t, he, hf, hpass, hcut⟩ := ih (by omega) fuel b genId
      { s with area := passed genId s.area b 1 }
      (fun le hl => (hpa le hl).trans (harea le (by omega))) (by omega) (fun h => ⟨h.symm, rfl⟩)
      (fun h => ⟨by omega, by rw [prevLogEntry_of_pos (by omega)]; omega,
        by rw [if_neg (by omega)]⟩) hmem
      (hb.congr fun le _ hl => (hpa le hl).trans (harea le (by omega)))
    rw [exec_recoverLoop_unused hne hc hg hsu]
    refine ⟨fuel', t, he, by omega, hpass.lift hle.1 hle.2 subset_rfl hold, fun u hcrash => ?_⟩
    rcases crash_recoverLoop_unused hne hc hg hsu hcrash with rfl | hcrash
    · exact .inl (.of_mem hold rfl hmem)
    · exact (hcut u hcrash).imp_left fun h => h.lift hle.1 subset_rfl hold
  | @region x n finished log hb hv hn hslots hundo hdet ih =>
    have hle := hb.dvd
    obtain ⟨hne, hc, hg⟩ := henter (by omega)
    have hc : prevLogEntry sbi.jsize tail = x + 64 * (n - 1) := by omega
    obtain ⟨fuel, rfl⟩ : ∃ f, fuel = f + 1 := ⟨fuel - 1, by omega⟩
    obtain ⟨hv', hlog⟩ := hv.congr fun i hi => harea (x + 64 * i) (by dsimp at hi; omega)
    rw [← hlog] at hmem hold hundo ⊢
    have hgen : (s.area (x + 64 * (n - 1))).genId = genId := hv'.gen (n - 1) (by dsimp only; omega)
    -- the walk gets down to the start record
    have hwalk : recoverWalk s.area sbi.jsize head genId (s.area (x + 64 * (n - 1))).transactionId
        (sbi.slots + 1) (x + 64 * (n - 1)) 0 false = .ok ⟨x, n, true, finished⟩ := by
      have hlt := hv'.used_lt
      have hw : recoverWalk s.area sbi.jsize head genId
          (s.area (x + 64 * (n - 1))).transactionId (sbi.slots + 1) (x + 64 * (n - 1)) 0
            false = _ :=
        recoverWalk_region hv' (by dsimp only; omega) (show n - 1 < n by omega) (by omega)
          (by dsimp only at hlt; omega)
      have hone : n - 1 + 1 = n := by omega
      rw [hw]
      simp [hone]
    have hwlog : Walk.log sbi genId s.area ⟨x, n, true, finished⟩ =
        (⟨x, n, n, finished⟩ : Region).log sbi genId s.area := by
      cases finished <;> rfl
    have hm : Walk.Mapped sbi genId s.area ⟨x, n, true, finished⟩ := by
      intro hu i hi _
      refine hv'.mapped ?_ i hi
      simpa [Walk.undoes] using hu
    have hpa : ∀ le, le < x → passed genId s.area x n le = s.area le :=
      fun le hle => passed_of_notMem (.inl hle)
    have hmem' : ∀ z, z ∉ dom log → z ∉ E →
        undo ((⟨x, n, n, finished⟩ : Region).log sbi genId s.area) s.mem z = m z := by
      intro z hz hzE
      rw [← congrFun hundo z]
      refine undo_congr fun hzr => hmem z ?_ hzE
      rw [mem_dom_append]
      exact not_or.2 ⟨hz, hzr⟩
    have hdom : dom log ⊆ dom (log ++ (⟨x, n, n, finished⟩ : Region).log sbi genId s.area) :=
      fun z hz => mem_dom_append.2 (.inl hz)
    have hlow : Replays sbi genId m s.area a x log :=
      hb.congr fun le _ hl => harea le (by omega)
    obtain ⟨fuel', t, he, hf, hpass, hcut⟩ := ih (by omega) fuel x genId
      { s with
        mem := undo ((⟨x, n, n, finished⟩ : Region).log sbi genId s.area) s.mem
        area := passed genId s.area x n }
      (fun le hl => (hpa le hl).trans (harea le (by omega))) (by omega) (fun h => ⟨h.symm, rfl⟩)
      (fun h => ⟨by omega, by rw [prevLogEntry_of_pos (by omega)]; omega,
        by rw [if_neg (by omega)]⟩) hmem'
      (hlow.congr fun le _ hl => hpa le hl)
    rw [exec_recoverLoop_walk hne hc hg hgen hwalk hm, hwlog]
    refine ⟨fuel', t, he, by omega, hpass.lift hle.1 hle.2 hdom hold, fun u hcrash => ?_⟩
    rcases crash_recoverLoop_walk hne hc hg hgen hwalk hm hcrash with ⟨hu, hsame⟩ |
      ⟨hx, k, hk, hu⟩ | hcrash
    · -- in the undo
      rw [hwlog] at hsame
      refine .inl (.of_mem hold hu fun z hz hzE => ?_)
      rw [mem_dom_append, not_or] at hz
      rw [hsame z hz.2]
      exact hmem z (mem_dom_append.not.2 (not_or.2 hz)) hzE
    · -- in the invalidation
      rw [hwlog] at hu
      by_cases hk0 : k = 0
      · subst hk0
        refine .inl (.of_mem hold hu fun z hz hzE => ?_)
        exact hmem' z (fun hin => hz (hdom hin)) hzE
      · refine .inl (.of_clear hle.1 hk hx hdom ?_ hu hmem')
        exact hlow.detach hv' hn ((hdet hx).congr hn fun le _ hl => harea le hl) hx (by omega) hk
    · rw [hwlog] at hcrash
      exact (hcut u hcrash).imp_left fun h => h.lift hle.1 hdom hold
  | @rest y n log hb hn hslots hlt hs hf hgen hstops ih =>
    have hle := hb.dvd
    obtain ⟨hne, hc, hg⟩ := henter (by omega)
    have hc : prevLogEntry sbi.jsize tail = y + 64 * (n - 1) := by omega
    obtain ⟨fuel, rfl⟩ : ∃ f, fuel = f + 1 := ⟨fuel - 1, by omega⟩
    have hlast : s.area (y + 64 * (n - 1)) = area (y + 64 * (n - 1)) := harea _ (by omega)
    have hgen' : (s.area (y + 64 * (n - 1))).genId = genId := by rwa [hlast]
    have hs' : ∀ i < n, (s.area (y + 64 * i)).genId = genId →
        (s.area (y + 64 * i)).isStart = false := fun i hi => by
      rw [harea _ (by omega)]
      exact hs i hi
    have hf' : ∀ i, i + 1 < n → (s.area (y + 64 * i)).genId = genId →
        (s.area (y + 64 * i)).isFinish = false := fun i hi => by
      rw [harea _ (by omega)]
      exact hf i hi
    have hstops' : Stops genId s.area a y (s.area (y + 64 * (n - 1))).transactionId := by
      rw [hlast]
      exact hstops.congr fun le _ hl => harea le (by omega)
    -- the walk finds no start record
    have hone : 0 + (n - 1) + 1 = n := by omega
    obtain ⟨cmt, hwalk⟩ : ∃ cmt, recoverWalk s.area sbi.jsize head genId
        (s.area (y + 64 * (n - 1))).transactionId (sbi.slots + 1) (y + 64 * (n - 1)) 0 false =
          .ok ⟨y, n, false, cmt⟩ := by
      have hrest := @recoverWalk_rest sbi genId s.area a y n 0 head (sbi.slots + 1) _ ha (by omega)
        hle.1 hs' hf' hstops' (n - 1) false (by omega) (by omega) (by omega)
      rwa [hone] at hrest
    have hwlog : Walk.log sbi genId s.area ⟨y, n, false, cmt⟩ = [] := rfl
    have hm : Walk.Mapped sbi genId s.area ⟨y, n, false, cmt⟩ := fun hu => by
      simp [Walk.undoes] at hu
    have hpa : ∀ le, le < y → passed genId s.area y n le = s.area le :=
      fun le hle => passed_of_notMem (.inl hle)
    have hlow : Replays sbi genId m s.area a y log :=
      hb.congr fun le _ hl => harea le (by omega)
    obtain ⟨fuel', t, he, hfuel', hpass, hcut⟩ := ih (by omega) fuel y genId
      { s with area := passed genId s.area y n }
      (fun le hl => (hpa le hl).trans (harea le (by omega))) (by omega) (fun h => ⟨h.symm, rfl⟩)
      (fun h => ⟨by omega, by rw [prevLogEntry_of_pos (by omega)]; omega,
        by rw [if_neg (by omega)]⟩) hmem
      (hlow.congr fun le _ hl => hpa le hl)
    rw [exec_recoverLoop_walk hne hc hg hgen' hwalk hm, hwlog, undo_nil]
    refine ⟨fuel', t, he, by omega, hpass.lift hle.1 hle.2 subset_rfl hold, fun u hcrash => ?_⟩
    rcases crash_recoverLoop_walk hne hc hg hgen' hwalk hm hcrash with ⟨hu, hsame⟩ |
      ⟨hx, k, hk, hu⟩ | hcrash
    · refine .inl (.of_mem hold hu fun z hz hzE => ?_)
      rw [hsame z (by simp [hwlog])]
      exact hmem z hz hzE
    · rw [hwlog, undo_nil] at hu
      refine .inl (.of_clear hle.1 hk hx subset_rfl ?_ hu hmem)
      exact hlow.rest_clear hn hslots hlt hs' hf' hgen' hstops' hx hk
    · rw [hwlog, undo_nil] at hcrash
      exact (hcut u hcrash).imp_left fun h => h.lift hle.1 subset_rfl hold

end Wpmfs.Journal
