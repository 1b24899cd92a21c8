import Wpmfs.Journal.Basic

/-!
# Regions of the journal

The journal area is a sequence of regions, each reserved by one transaction, which fills it from
its first entry on. Both walks over the journal invalidate the entries they pass in the largest
generation.
-/

namespace Wpmfs.Journal

open Persist

/-- A region of the journal reserved by one transaction: its first `used` of `len` entries are
written, and the last of them is a commit or abort record if `finished`. -/
structure Region where
  start : Nat
  len : Nat
  used : Nat
  finished : Bool

/-- The entries of the region are those of one transaction of the generation `genId`. -/
structure Region.Written (genId : UInt16) (area : Nat → LogEntry) (r : Region) : Prop where
  used_le : r.used ≤ r.len
  used_lt : r.used < 2 ^ 16
  gen : ∀ i < r.used, (area (r.start + 64 * i)).genId = genId
  stale : ∀ i, r.used ≤ i → i < r.len → (area (r.start + 64 * i)).genId ≠ genId
  isStart : ∀ i < r.used, (area (r.start + 64 * i)).isStart = decide (i = 0)
  isFinish : ∀ i < r.used,
    (area (r.start + 64 * i)).isFinish = (r.finished && decide (i + 1 = r.used))

theorem Region.Written.congr {genId : UInt16} {area area' : Nat → LogEntry} {r : Region}
    (h : r.Written genId area)
    (he : ∀ i < r.len, area' (r.start + 64 * i) = area (r.start + 64 * i)) :
    r.Written genId area' := by
  have hle := h.used_le
  refine ⟨hle, h.used_lt, fun i hi => ?_, fun i hu hi => ?_, fun i hi => ?_, fun i hi => ?_⟩
  · rw [he i (by omega), h.gen i hi]
  · rw [he i hi]
    exact h.stale i hu hi
  · rw [he i (by omega), h.isStart i hi]
  · rw [he i (by omega), h.isFinish i hi]

/-- Stretches of entries that fill the journal from `a` up to `b`, one after the other. -/
def Chain {α : Type} (start len : α → Nat) : List α → Nat → Nat → Prop
  | [], a, b => a = b
  | r :: rs, a, b => start r = a ∧ Chain start len rs (a + 64 * len r) b

theorem Chain.le {α : Type} {start len : α → Nat} {rs : List α} {a b : Nat}
    (h : Chain start len rs a b) : a ≤ b := by
  induction rs generalizing a with
  | nil => exact le_of_eq h
  | cons r rs ih =>
    have := ih h.2
    omega

theorem chain_append {α : Type} {start len : α → Nat} {rs qs : List α} {a c : Nat} :
    Chain start len (rs ++ qs) a c ↔
      ∃ b, Chain start len rs a b ∧ Chain start len qs b c := by
  induction rs generalizing a with
  | nil => simp [Chain]
  | cons r rs ih => simp [Chain, ih, and_assoc]

theorem chain_map {α β : Type} {start len : β → Nat} {f : α → β} {rs : List α} {a b : Nat} :
    Chain start len (rs.map f) a b ↔ Chain (start ∘ f) (len ∘ f) rs a b := by
  induction rs generalizing a with
  | nil => rfl
  | cons r rs ih => simp [Chain, ih]

theorem Chain.congr {α : Type} {start len start' len' : α → Nat} {rs : List α} {a b : Nat}
    (h : Chain start len rs a b) (he : ∀ r ∈ rs, start' r = start r ∧ len' r = len r) :
    Chain start' len' rs a b := by
  induction rs generalizing a with
  | nil => exact h
  | cons r rs ih =>
    obtain ⟨hs, hl⟩ := he r List.mem_cons_self
    exact ⟨hs.trans h.1, hl.symm ▸ ih h.2 fun q hq => he q (List.mem_cons_of_mem _ hq)⟩

/-- Each stretch of a chain lies between its ends. -/
theorem Chain.bounds {α : Type} {start len : α → Nat} {rs : List α} {a b : Nat}
    (h : Chain start len rs a b) {r : α} (hr : r ∈ rs) :
    a ≤ start r ∧ start r + 64 * len r ≤ b := by
  induction rs generalizing a with
  | nil => cases hr
  | cons q rs ih =>
    obtain ⟨rfl, hc⟩ := h
    have hle := hc.le
    rcases List.mem_cons.1 hr with rfl | hr
    · exact ⟨le_refl _, hle⟩
    · have := ih hc hr
      omega

/-- The stretches of a chain do not overlap. -/
theorem Chain.pairwise {α : Type} {start len : α → Nat} {rs : List α} {a b : Nat}
    (h : Chain start len rs a b) : rs.Pairwise fun x y => start x + 64 * len x ≤ start y := by
  induction rs generalizing a with
  | nil => exact .nil
  | cons r rs ih =>
    obtain ⟨rfl, hc⟩ := h
    exact .cons (fun q hq => (hc.bounds hq).1) (ih hc)

theorem Chain.dvd {α : Type} {start len : α → Nat} {rs : List α} {a b : Nat}
    (h : Chain start len rs a b) (ha : 64 ∣ a) {r : α} (hr : r ∈ rs) : 64 ∣ start r := by
  induction rs generalizing a with
  | nil => cases hr
  | cons q rs ih =>
    obtain ⟨rfl, hc⟩ := h
    rcases List.mem_cons.1 hr with rfl | hr
    · exact ha
    · exact ih hc (by omega) hr

theorem Chain.dvd_end {α : Type} {start len : α → Nat} {rs : List α} {a b : Nat}
    (h : Chain start len rs a b) (ha : 64 ∣ a) : 64 ∣ b := by
  induction rs generalizing a with
  | nil => exact (show a = b from h) ▸ ha
  | cons r rs ih => exact ih h.2 (by omega)

/-- The area with the generation ids of `n` entries from `start` on set to 0. -/
def clearGenIds (area : Nat → LogEntry) (start : Nat) : Nat → Nat → LogEntry
  | 0 => area
  | n + 1 =>
    let area := clearGenIds area start n
    Function.update area (start + 64 * n)
      { area (start + 64 * n) with genId := 0 }

/-- The area after the entries passed in a generation are dealt with: in the largest
generation they are invalidated. -/
def passed (genId : UInt16) (area : Nat → LogEntry) (start n : Nat) : Nat → LogEntry :=
  if genId = maxGenId then clearGenIds area start n else area

theorem clearGenIds_of_notMem {area : Nat → LogEntry} {start n le : Nat}
    (h : ∀ i < n, le ≠ start + 64 * i) : clearGenIds area start n le = area le := by
  induction n with
  | zero => rfl
  | succ n ih =>
    rw [clearGenIds, Function.update_of_ne (h n (by omega)), ih fun i hi => h i (by omega)]

theorem clearGenIds_genId (area : Nat → LogEntry) (a k le : Nat) :
    (clearGenIds area a k le).genId = (area le).genId ∨ (clearGenIds area a k le).genId = 0 := by
  induction k with
  | zero => exact .inl rfl
  | succ k ih =>
    rw [clearGenIds]
    by_cases h : le = a + 64 * k
    · subst h
      exact .inr (by simp)
    · rwa [Function.update_of_ne h]

theorem passed_of_notMem {genId : UInt16} {area : Nat → LogEntry} {start n le : Nat}
    (h : le < start ∨ start + 64 * n ≤ le) : passed genId area start n le = area le := by
  unfold passed
  split
  · refine clearGenIds_of_notMem fun i hi => ?_
    omega
  · rfl

theorem exec_pmfsInvalidateLogentries (trans : Transaction) (s : Image) :
    (pmfsInvalidateLogentries trans).exec s =
      ({ s with area := clearGenIds s.area trans.start trans.numEntries }, .ok ()) := by
  unfold pmfsInvalidateLogentries
  induction trans.numEntries with
  | zero => rfl
  | succ n ih =>
    rw [Prog.forRange, Prog.exec_bind, ih]
    rfl

end Wpmfs.Journal
