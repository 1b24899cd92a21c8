import Wpmfs.Journal.Survey

/-!
# When a reservation is safe

`pmfs_new_transaction` adds up what is free and what its cleaning passes report as freed, with
the head it read at first, and sets the tail to 0 where the request does not fit below the end
of the area. `Overcommitted` lists the states in which this grants space that is not free.
-/

namespace Wpmfs.Journal

open Persist

/-- The number of bytes from the offset `a` forward to `x`. -/
def SbInfo.ahead (sbi : SbInfo) (a x : Nat) : Nat := if a ≤ x then x - a else sbi.jsize - a + x

/-- The offset lies between where the head is now and the tail before the call; nowhere if the
head has got to that tail or beyond it. -/
def Live (sbi : SbInfo) (s : Image) (head x : Nat) : Prop :=
  x < sbi.jsize ∧ sbi.ahead s.head head ≤ sbi.ahead s.head x ∧
    sbi.ahead s.head x < sbi.ahead s.head s.tail

/-- The range reserved in the state `s` lies in the area and holds no live entry, and the new
tail is not the new head. -/
structure SafeReservation (sbi : SbInfo) (s : Image) (req start head tail : Nat) : Prop where
  inside : start + req ≤ sbi.jsize
  disjoint : ∀ x, start ≤ x → x < start + req → ¬Live sbi s head x
  tail_ne : tail ≠ head

/-- The states in which a request for `req` bytes is granted space that is not free; `f` is the
survey of the regions. -/
inductive Overcommitted (sbi : SbInfo) (s : Image) (f : Survey) (req : Nat) : Prop where
  /-- A request for nothing, on an empty journal. -/
  | nothing : req = 0 → s.head = s.tail → Overcommitted sbi s f req
  /-- The tail of a wrapped journal moves onto the transaction the passes stop at, whose
  entries they have reported as freed. -/
  | ontoBlocking : s.tail < s.head → availSize sbi s.head s.tail < req →
      s.tail + req < sbi.jsize → s.tail < f.head → f.head ≤ s.tail + req →
      Reported (availSize sbi s.head s.tail) f.counted f.blocking req → Overcommitted sbi s f req
  /-- The request does not fit below the end of the area, and from offset 0 on it covers the
  transaction the passes stop at, whose entries they have reported as freed. -/
  | restart : s.head ≤ s.tail → req ≤ availSize sbi s.head s.tail → sbi.jsize ≤ s.tail + req →
      availSize sbi s.head 0 < req → f.head < s.tail → f.head ≤ req →
      Reported (availSize sbi s.head 0) f.counted f.blockingAtEnd req → Overcommitted sbi s f req
  /-- The head has moved in the passes, and the request fits below the head that was read before
  them, but not below the head as it is. -/
  | staleHead : availSize sbi s.head s.tail < req → sbi.jsize ≤ s.tail + req → req < sbi.jsize →
      req ≤ availSize sbi s.head 0 →
      (s.tail < f.head ∨ f.head = req ∨ f.head ≠ s.tail ∧ f.head < req) →
      Reported (availSize sbi s.head s.tail) f.counted f.blocking req → Overcommitted sbi s f req
  /-- Passes before and after the tail is set to 0 report the entries of the transaction they
  stop at, and the request covers it. -/
  | restartAgain : availSize sbi s.head s.tail < req → sbi.jsize ≤ s.tail + req →
      req < sbi.jsize → availSize sbi s.head 0 < req → 0 < f.head → f.head < s.tail →
      f.head ≤ req → Reported (availSize sbi s.head s.tail) f.counted f.blocking req →
      Reported (availSize sbi s.head 0) 0 f.blockingAtEnd req → Overcommitted sbi s f req
  /-- The new tail overflows. -/
  | overflow : availSize sbi s.head s.tail < req → 2 ^ 32 ≤ s.tail + req →
      Reported (availSize sbi s.head s.tail) f.counted f.blocking req → Overcommitted sbi s f req

section

variable {sbi : SbInfo} {s : Image} {req fuel head tail h n b : Nat} {area' : Nat → LogEntry}

/-- What a turn through `again` does once enough space is free, or reported as such. -/
def granted (sbi : SbInfo) (req fuel head tail : Nat) (genId : UInt16) (s : Image) :
    Image × Except Fault (Option (UInt16 × Nat)) :=
  if (tail + req) % 2 ^ 32 ≥ sbi.jsize then (reserve sbi req fuel head 0).exec s.restarted
  else ({ s with tail := (tail + req) % 2 ^ 32 }, .ok (some (genId, tail)))

/-- The cleaning passes of a turn, if it needs them. -/
def freeing (sbi : SbInfo) (req head tail : Nat) : JProg Nat :=
  if availSize sbi head tail < req then freeLoop sbi (availSize sbi head tail) req 3 0 else .ret 0

/-- One turn through `again`. -/
theorem exec_reserve_succ : (reserve sbi req (fuel + 1) head tail).exec s =
    match (freeing sbi req head tail).exec s with
    | (t, .error e) => (t, .error e)
    | (t, .ok freed) =>
      if availSize sbi head tail < req ∧ (availSize sbi head tail + freed) % 2 ^ 32 < req then
        (t, .ok none)
      else granted sbi req fuel head tail s.genId t := by
  rw [reserve, freeing]
  by_cases hlt : availSize sbi head tail < req
  · simp only [Prog.exec, if_pos hlt, Prog.exec_bind]
    rcases (freeLoop sbi (availSize sbi head tail) req 3 0).exec s with ⟨t, e | freed⟩
    · rfl
    · dsimp only
      split
      · rfl
      · unfold granted
        split <;> rfl
  · simp only [Prog.exec, eq_false hlt, if_false, false_and, Prog.ret_bind]
    unfold granted
    split <;> rfl

/-- One turn through `again` with enough space free. -/
theorem exec_reserve_of_le (h : req ≤ availSize sbi head tail) :
    (reserve sbi req (fuel + 1) head tail).exec s = granted sbi req fuel head tail s.genId s := by
  rw [exec_reserve_succ, freeing, if_neg (by omega)]
  dsimp only [Prog.exec]
  rw [if_neg (by omega)]

/-- One turn through `again` that needs the cleaning passes. -/
theorem exec_reserve_of_lt (fuel : Nat) (hs : Shape sbi s) (hf : Front sbi s h area' n b)
    (hlt : availSize sbi head tail < req) (hb : 64 * b ≤ 2 ^ 31)
    (hfit : availSize sbi head tail + 64 * (n + b) < 2 ^ 32) (hreq : req < 2 ^ 32) :
    (Reported (availSize sbi head tail) n b req →
      (reserve sbi req (fuel + 1) head tail).exec s =
        granted sbi req fuel head tail s.genId { s with head := h, area := area' }) ∧
    (¬Reported (availSize sbi head tail) n b req →
      (reserve sbi req (fuel + 1) head tail).exec s =
        ({ s with head := h, area := area' }, .ok none)) := by
  obtain ⟨freed, he, hr⟩ := exec_freeLoop hs hf hb hfit hreq
  rw [exec_reserve_succ, freeing, if_pos hlt, he]
  constructor
  · intro hrep
    have hge := hr.2 hrep
    exact if_neg (by omega)
  · intro hrep
    have hge := mt hr.1 hrep
    exact if_pos ⟨hlt, by omega⟩

/-- More fuel changes nothing once the call returns. -/
theorem exec_reserve_mono {t : Image} {r : Option (UInt16 × Nat)}
    (h : (reserve sbi req fuel head tail).exec s = (t, .ok r)) (k : Nat) :
    (reserve sbi req (fuel + k) head tail).exec s = (t, .ok r) := by
  induction fuel generalizing tail s with
  | zero => cases h
  | succ fuel ih =>
    rw [Nat.add_right_comm, exec_reserve_succ]
    rw [exec_reserve_succ] at h
    split at h
    · cases h
    · split at h
      · rw [if_pos ‹_›, h]
      · rw [if_neg ‹_›]
        unfold granted at h ⊢
        split at h
        · rw [if_pos ‹_›, ih h]
        · rw [if_neg ‹_›, h]

/-- A request of the size of the area is never granted from offset 0 on. -/
theorem exec_reserve_zero_ne (hsize : sbi.jsize ≤ req) (hreq : req < 2 ^ 32) (t : Image)
    (r : UInt16 × Nat) : (reserve sbi req fuel head 0).exec s ≠ (t, .ok (some r)) := by
  induction fuel generalizing s with
  | zero => exact fun h => by cases h
  | succ fuel ih =>
    rw [exec_reserve_succ]
    intro h
    split at h
    · cases h
    · split at h
      · cases h
      · rw [granted, if_pos (by omega)] at h
        exact ih h

/-- Every reservation the call grants is safe. -/
def ReservesSafely (sbi : SbInfo) (s : Image) (req : Nat) : Prop :=
  ∀ fuel t g start, (reserve sbi req fuel s.head s.tail).exec s = (t, .ok (some (g, start))) →
    SafeReservation sbi s req start t.head t.tail

/-- Two turns settle which reservation is granted. -/
theorem reservesSafely_iff {t : Image} {g : UInt16} {start : Nat}
    (h : (reserve sbi req 2 s.head s.tail).exec s = (t, .ok (some (g, start)))) :
    ReservesSafely sbi s req ↔ SafeReservation sbi s req start t.head t.tail := by
  constructor
  · intro hsafe
    exact hsafe 2 t g start h
  · intro hsafe fuel t' g' start' he
    have h₁ := exec_reserve_mono h fuel
    have h₂ := exec_reserve_mono he 2
    rw [Nat.add_comm, h₂] at h₁
    cases h₁
    exact hsafe

theorem reservesSafely_of_none {t : Image}
    (h : (reserve sbi req 2 s.head s.tail).exec s = (t, .ok none)) :
    ReservesSafely sbi s req := by
  intro fuel t' g' start' he
  have h₁ := exec_reserve_mono h fuel
  have h₂ := exec_reserve_mono he 2
  rw [Nat.add_comm, h₂] at h₁
  cases h₁

theorem Shape.restarted (hs : Shape sbi s) : Shape sbi s.restarted := by
  have := hs.tail_lt
  exact ⟨hs.dvd_size, hs.size_le, hs.dvd_head, Nat.dvd_zero _, hs.head_lt,
    show 0 < sbi.jsize by omega, nextGenId_ne_zero _⟩

/-- The free space, without the case distinction. -/
theorem availSize_cases (hs : Shape sbi s) :
    (s.head ≤ s.tail ∧ availSize sbi s.head s.tail + (s.tail - s.head) + 64 = sbi.jsize ∨
      s.tail < s.head ∧ availSize sbi s.head s.tail + s.tail + 64 = s.head) ∧
    (s.head = 0 ∧ availSize sbi s.head 0 + 64 = sbi.jsize ∨
      0 < s.head ∧ availSize sbi s.head 0 + 64 = s.head) := by
  obtain ⟨hsize, hsize', hdh, hdt, hhead, htail, hgen⟩ := hs
  unfold availSize
  split_ifs <;> omega

/-- A region at the tail, the head where it was. -/
theorem safeReservation_tail (hs : Shape sbi s) (h : req ≤ availSize sbi s.head s.tail)
    (hend : s.tail + req < sbi.jsize) :
    SafeReservation sbi s req s.tail s.head (s.tail + req) ↔ ¬(req = 0 ∧ s.head = s.tail) := by
  obtain ⟨hA, -⟩ := availSize_cases hs
  have hhead := hs.head_lt
  constructor
  · rintro ⟨-, -, htl⟩ ⟨h1, h2⟩
    omega
  · intro hne
    refine ⟨hend.le, fun x h1 h2 hl => ?_, by omega⟩
    obtain ⟨-, -, h3⟩ := hl
    unfold SbInfo.ahead at h3
    split_ifs at h3 <;> omega

/-- A region at the tail of a wrapped journal, the head moved to `h`. -/
theorem safeReservation_cleaned (hs : Shape sbi s) (hlt : s.tail < s.head)
    (hh : s.head ≤ h ∧ h < sbi.jsize ∨ h ≤ s.tail) (hend : s.tail + req < sbi.jsize)
    (hpos : 0 < req) :
    SafeReservation sbi s req s.tail h (s.tail + req) ↔ h ≤ s.tail ∨ s.tail + req < h := by
  have hhead := hs.head_lt
  constructor
  · rintro ⟨-, hdis, hne⟩
    by_contra hc
    refine hdis h (by omega) (by omega) ⟨by omega, le_refl _, ?_⟩
    unfold SbInfo.ahead
    split_ifs <;> omega
  · intro hc
    refine ⟨hend.le, fun x h1 h2 hl => ?_, by omega⟩
    obtain ⟨-, h3, h4⟩ := hl
    unfold SbInfo.ahead at h3 h4
    split_ifs at h3 h4 <;> omega

/-- A region from offset 0 on, the head moved to `h`. -/
theorem safeReservation_zero (hs : Shape sbi s) (hpos : 0 < req) (hend : req < sbi.jsize)
    (hh : s.head ≤ s.tail ∧ s.head ≤ h ∧ h ≤ s.tail ∨
      s.tail < s.head ∧ 0 < s.tail ∧ (s.head ≤ h ∧ h < sbi.jsize ∨ h ≤ s.tail)) :
    SafeReservation sbi s req 0 h req ↔ h ≤ s.tail ∧ h ≠ req ∧ (h = s.tail ∨ req ≤ h) := by
  have hhead := hs.head_lt
  have htail := hs.tail_lt
  constructor
  · rintro ⟨-, hdis, hne⟩
    have hle : h ≤ s.tail := by
      by_contra hc
      refine hdis 0 (le_refl _) (by omega) ⟨by omega, ?_, ?_⟩ <;>
      · unfold SbInfo.ahead
        split_ifs <;> omega
    refine ⟨hle, by omega, ?_⟩
    by_contra hc
    refine hdis h (by omega) (by omega) ⟨by omega, le_refl _, ?_⟩
    unfold SbInfo.ahead
    split_ifs <;> omega
  · rintro ⟨h1, h2, h3⟩
    refine ⟨by omega, fun x _ hx hl => ?_, by omega⟩
    obtain ⟨-, h4, h5⟩ := hl
    unfold SbInfo.ahead at h4 h5
    split_ifs at h4 h5 <;> omega

/-- A region from offset 0 on that ends before the head, with the head back at offset 0 because
the journal was found empty. -/
theorem safeReservation_empty (hs : Shape sbi s) (hpos : 0 < req) (hend : req < sbi.jsize)
    (hle : s.head ≤ s.tail) (hhead : 0 < s.head) : SafeReservation sbi s req 0 0 req := by
  have htail := hs.tail_lt
  refine ⟨by omega, fun x _ hx hl => ?_, by omega⟩
  obtain ⟨-, h4, h5⟩ := hl
  unfold SbInfo.ahead at h4 h5
  split_ifs at h4 h5 <;> omega

/-- A request the free space covers, also after setting the tail to 0 where that is needed. -/
theorem reservesSafely_iff_of_le {f : Survey} (hs : Shape sbi s) (hf : Surveyed sbi s f)
    (hreq : req < 2 ^ 32) (h1 : req ≤ availSize sbi s.head s.tail) :
    ReservesSafely sbi s req ↔ ¬Overcommitted sbi s f req := by
  obtain ⟨hA, hA₀⟩ := availSize_cases hs
  obtain ⟨hsize, hsize', hdh, hdt, hhead, htail, hgen⟩ := id hs
  have hturn : ∀ fuel, (reserve sbi req (fuel + 1) s.head s.tail).exec s =
      granted sbi req fuel s.head s.tail s.genId s := fun fuel => exec_reserve_of_le h1
  by_cases h2 : s.tail + req < sbi.jsize
  · -- below the end of the area
    have hg : (reserve sbi req 2 s.head s.tail).exec s =
        ({ s with tail := s.tail + req }, .ok (some (s.genId, s.tail))) := by
      rw [hturn, granted, Nat.mod_eq_of_lt (by omega), if_neg (by omega)]
    rw [reservesSafely_iff hg, safeReservation_tail hs h1 h2]
    refine not_congr ⟨fun h => .nothing h.1 h.2, fun ho => ?_⟩
    cases ho <;> omega
  have hwrap : (reserve sbi req 2 s.head s.tail).exec s =
      (reserve sbi req 1 s.head 0).exec s.restarted := by
    rw [hturn, granted, Nat.mod_eq_of_lt (by omega), if_pos (by omega)]
  by_cases h3 : req ≤ availSize sbi s.head 0
  · -- from offset 0 on, below the head
    have hg : (reserve sbi req 2 s.head s.tail).exec s =
        ({ s.restarted with tail := req }, .ok (some (s.restarted.genId, 0))) := by
      rw [hwrap, exec_reserve_of_le h3, granted, Nat.zero_add, Nat.mod_eq_of_lt hreq,
        if_neg (by omega)]
    have hsafe : SafeReservation sbi s req 0 s.head req :=
      (safeReservation_zero hs (by omega) (by omega) (.inl ⟨by omega, le_refl _, by omega⟩)).2
        (by omega)
    rw [reservesSafely_iff hg]
    refine iff_of_true hsafe fun ho => ?_
    cases ho <;> omega
  -- from offset 0 on, after cleaning passes
  obtain ⟨area', hfront⟩ := hf.restart (by omega) (by omega)
  have hcount := hf.counted (by omega)
  have hend := hf.blockingAtEnd
  have hle := hf.straight (by omega)
  have hpass := exec_reserve_of_lt 0 hs.restarted hfront (Nat.lt_of_not_le h3)
    (by split <;> omega) (by split <;> omega) hreq
  by_cases hrep : Reported (availSize sbi s.head 0) f.counted
      (if f.head < s.tail then f.blockingAtEnd else 0) req
  · have hg : (reserve sbi req 2 s.head s.tail).exec s =
        ({ s.restarted with
          head := if f.head < s.tail then f.head else 0, area := area', tail := req },
          .ok (some (s.restarted.genId, 0))) := by
      rw [hwrap, hpass.1 hrep, granted, Nat.zero_add, Nat.mod_eq_of_lt hreq, if_neg (by omega)]
    rw [reservesSafely_iff hg]
    by_cases hb : f.head < s.tail
    · simp only [if_pos hb] at hrep ⊢
      rw [safeReservation_zero hs (by omega) (by omega) (.inl ⟨by omega, hle⟩), ← not_iff_not,
        not_not]
      refine ⟨fun h => .restart (by omega) h1 (by omega) (by omega) hb (by omega) hrep,
        fun ho => ?_⟩
      cases ho <;> omega
    · simp only [if_neg hb]
      refine iff_of_true (safeReservation_empty hs (by omega) (by omega) (by omega) (by omega))
        fun ho => ?_
      cases ho <;> omega
  · refine iff_of_true (reservesSafely_of_none (hwrap.trans (hpass.2 hrep))) fun ho => ?_
    cases ho with
    | restart _ _ _ _ hb _ hr => exact hrep (by rwa [if_pos hb])
    | _ => omega

/-- A request that needs cleaning passes from the start. -/
theorem reservesSafely_iff_of_lt {f : Survey} (hs : Shape sbi s) (hf : Surveyed sbi s f)
    (hreq : req < 2 ^ 32) (hdvd : 64 ∣ req) (h1 : availSize sbi s.head s.tail < req) :
    ReservesSafely sbi s req ↔ ¬Overcommitted sbi s f req := by
  obtain ⟨hA, hA₀⟩ := availSize_cases hs
  obtain ⟨hsize, hsize', hdh, hdt, hhead, htail, hgen⟩ := id hs
  obtain ⟨area', hfront, h₂, area'', hfront₂, hh₂⟩ := hf.front
  have hend := hf.blockingAtEnd
  have hblock := hf.blocking
  have hle := hf.straight
  have hlt := hf.wrapped
  have hshape := hfront.shape hs
  have hpass := fun fuel => exec_reserve_of_lt fuel hs hfront h1
    (by split at hblock <;> omega) (by split at hblock <;> omega) hreq
  have hhead' : f.head < sbi.jsize := hshape.head_lt
  by_cases hrep : Reported (availSize sbi s.head s.tail) f.counted f.blocking req
  swap
  · refine iff_of_true (reservesSafely_of_none ((hpass 1).2 hrep)) fun ho => ?_
    cases ho with
    | nothing | restart => omega
    | _ => exact hrep ‹_›
  have hturn : ∀ fuel, (reserve sbi req (fuel + 1) s.head s.tail).exec s = _ :=
    fun fuel => (hpass fuel).1 hrep
  by_cases h2 : 2 ^ 32 ≤ s.tail + req
  · -- the region goes beyond the end of the area
    have hg : (reserve sbi req 2 s.head s.tail).exec s =
        ({ s with head := f.head, area := area', tail := s.tail + req - 2 ^ 32 },
          .ok (some (s.genId, s.tail))) := by
      rw [hturn, granted, show (s.tail + req) % 2 ^ 32 = s.tail + req - 2 ^ 32 by omega,
        if_neg (by omega)]
    rw [reservesSafely_iff hg]
    exact iff_of_false (fun hsafe => by have := hsafe.inside; omega)
      (not_not.2 (.overflow h1 h2 hrep))
  by_cases h3 : s.tail + req < sbi.jsize
  · -- at the tail, below the head it takes to be free
    have hg : (reserve sbi req 2 s.head s.tail).exec s =
        ({ s with head := f.head, area := area', tail := s.tail + req },
          .ok (some (s.genId, s.tail))) := by
      rw [hturn, granted, Nat.mod_eq_of_lt (by omega), if_neg (by omega)]
    rw [reservesSafely_iff hg, safeReservation_cleaned hs (by omega) (hlt (by omega)) h3 (by omega),
      ← not_iff_not, not_not]
    refine ⟨fun h => .ontoBlocking (by omega) h1 h3 (by omega) (by omega) hrep, fun ho => ?_⟩
    cases ho <;> omega
  by_cases h4 : sbi.jsize ≤ req
  · -- no turn grants it
    refine iff_of_true (fun fuel t g start he => ?_) fun ho => ?_
    · cases fuel with
      | zero => cases he
      | succ fuel =>
        rw [hturn, granted, Nat.mod_eq_of_lt (by omega), if_pos (by omega)] at he
        exact (exec_reserve_zero_ne h4 hreq _ _ he).elim
    · cases ho <;> omega
  have hwrap : (reserve sbi req 2 s.head s.tail).exec s = (reserve sbi req 1 s.head 0).exec
      { s with head := f.head, area := area' }.restarted := by
    rw [hturn, granted, Nat.mod_eq_of_lt (by omega), if_pos (by omega)]
  have hplace : s.head ≤ s.tail ∧ s.head ≤ f.head ∧ f.head ≤ s.tail ∨
      s.tail < s.head ∧ 0 < s.tail ∧ (s.head ≤ f.head ∧ f.head < sbi.jsize ∨ f.head ≤ s.tail) := by
    omega
  by_cases h5 : req ≤ availSize sbi s.head 0
  · -- from offset 0 on, below the head that was read at first
    have hg : (reserve sbi req 2 s.head s.tail).exec s =
        ({ s with head := f.head, area := area', genId := nextGenId s.genId, tail := req },
          .ok (some (nextGenId s.genId, 0))) := by
      rw [hwrap, exec_reserve_of_le h5, granted, Nat.zero_add, Nat.mod_eq_of_lt hreq,
        if_neg (by omega)]
      rfl
    rw [reservesSafely_iff hg, safeReservation_zero hs (by omega) (by omega) hplace,
      ← not_iff_not, not_not]
    refine ⟨fun h => .staleHead h1 (by omega) (by omega) h5 (by omega) hrep, fun ho => ?_⟩
    cases ho <;> omega
  · -- from offset 0 on, after more cleaning passes
    have hpass₂ := exec_reserve_of_lt 0 hshape.restarted hfront₂ (Nat.lt_of_not_le h5)
      (by split <;> omega) (by split <;> omega) hreq
    by_cases hrep₂ : Reported (availSize sbi s.head 0) 0
        (if 0 < f.head ∧ f.head < s.tail then f.blockingAtEnd else 0) req
    · have hb : 0 < f.head ∧ f.head < s.tail := by
        by_contra hb
        rw [if_neg hb] at hrep₂
        obtain ⟨k, -, -, hk, -⟩ := hrep₂
        omega
      have hg : (reserve sbi req 2 s.head s.tail).exec s =
          ({ s with head := h₂, area := area'', genId := nextGenId s.genId, tail := req },
            .ok (some (nextGenId s.genId, 0))) := by
        rw [hwrap, hpass₂.1 hrep₂, granted, Nat.zero_add, Nat.mod_eq_of_lt hreq,
          if_neg (by omega)]
        rfl
      rw [if_pos hb] at hrep₂
      rw [reservesSafely_iff hg, hh₂ hb.1 hb.2,
        safeReservation_zero hs (by omega) (by omega) hplace, ← not_iff_not, not_not]
      refine ⟨fun h => .restartAgain h1 (by omega) (by omega) (by omega) hb.1 hb.2 (by omega) hrep
        hrep₂, fun ho => ?_⟩
      cases ho <;> omega
    · refine iff_of_true (reservesSafely_of_none (hwrap.trans (hpass₂.2 hrep₂))) fun ho => ?_
      cases ho with
      | restartAgain _ _ _ _ hp hb _ _ hr => exact hrep₂ (by rwa [if_pos ⟨hp, hb⟩])
      | _ => omega

/-- Every reservation is safe exactly in the states that are not overcommitted. -/
theorem reservesSafely_iff_not_overcommitted {older newer : List Region} (hs : Shape sbi s)
    (hw : WellFormed sbi s older newer) (hreq : req < 2 ^ 32) (hdvd : 64 ∣ req) :
    ReservesSafely sbi s req ↔ ¬Overcommitted sbi s (survey sbi s older newer) req := by
  have hf := hw.surveyed hs
  rcases Nat.lt_or_ge (availSize sbi s.head s.tail) req with h | h
  · exact reservesSafely_iff_of_lt hs hf hreq hdvd h
  · exact reservesSafely_iff_of_le hs hf hreq h

theorem exec_pmfsNewTransaction {tid : UInt32} {max : Nat} {t : Image} {trans : Transaction} :
    (pmfsNewTransaction sbi fuel tid max).exec s = (t, .ok (some trans)) ↔
      (reserve sbi (reqSize max) fuel s.head s.tail).exec s =
          (t, .ok (some (trans.genId, trans.start))) ∧
        trans = ⟨tid, (max + 1) % 2 ^ 16, 0, trans.genId, trans.start⟩ := by
  simp only [pmfsNewTransaction, Prog.exec, Prog.exec_bind]
  rcases (reserve sbi (reqSize max) fuel s.head s.tail).exec s with ⟨u, e | _ | ⟨g, start⟩⟩
  · simp
  · simp [Prog.exec]
  · simp only [Prog.exec, Prod.mk.injEq, Except.ok.injEq, Option.some.injEq]
    constructor
    · rintro ⟨rfl, rfl⟩
      exact ⟨⟨rfl, rfl, rfl⟩, rfl⟩
    · rintro ⟨⟨rfl, rfl, rfl⟩, h⟩
      exact ⟨rfl, h.symm⟩

end

theorem emptyImage_shape : Shape ⟨65536, false⟩ emptyImage where
  dvd_size := by decide
  size_le := by decide
  dvd_head := by decide
  dvd_tail := by decide
  head_lt := by decide
  tail_lt := by decide
  genId_ne := by decide

theorem emptyImage_wellFormed : WellFormed ⟨65536, false⟩ emptyImage [] [] :=
  .straight (le_refl _) rfl (by simp) fun _ _ _ _ => show (0 : UInt16) ≠ 1 by decide

/-- A journal of 1024 entries, the first 600 of them those of an unfinished transaction. -/
def crowdedImage : Image :=
  { emptyImage with
    tail := 38400
    area := fun le => if le < 38400 then ⟨0, 1, 1, if le = 0 then leStart else leData, 0, fun _ => 0⟩
      else ⟨0, 0, 0, 0, 0, fun _ => 0⟩ }

theorem crowdedImage_shape : Shape ⟨65536, false⟩ crowdedImage where
  dvd_size := by decide
  size_le := by decide
  dvd_head := by decide
  dvd_tail := by decide
  head_lt := by decide
  tail_lt := by decide
  genId_ne := by decide

theorem crowdedImage_wellFormed :
    WellFormed ⟨65536, false⟩ crowdedImage [] [⟨0, 600, 600, false⟩] := by
  refine .straight (by decide) ⟨rfl, rfl⟩ (fun r hr => ?_) fun le h _ _ => ?_
  · obtain rfl := List.mem_singleton.1 hr
    have hentry : ∀ i < 600, crowdedImage.area (0 + 64 * i) =
        ⟨0, 1, 1, if i = 0 then leStart else leData, 0, fun _ => 0⟩ := by
      intro i hi
      have hle : 64 * i < 38400 := by omega
      have hz : 64 * i = 0 ↔ i = 0 := by omega
      simp [crowdedImage, hle, hz]
    refine ⟨le_refl _, by decide, fun i hi => ?_, fun i h1 h2 => ?_, fun i hi => ?_, fun i hi => ?_⟩
    · rw [hentry i hi]
      rfl
    · exact absurd h2 (Nat.not_lt.2 h1)
    · rw [hentry i hi]
      by_cases hz : i = 0 <;> simp [LogEntry.isStart, hz, leStart, leData]
    · rw [hentry i hi]
      by_cases hz : i = 0
      · rw [if_pos hz]
        rfl
      · rw [if_neg hz]
        rfl
  · have hle : ¬le < 38400 := Nat.not_lt.2 h
    simp [crowdedImage, emptyImage, hle]

end Wpmfs.Journal
