import Wpmfs.Journal.Scan

/-!
# Entries beyond the tail

An entry may become persistent before the tail that covers it does. Recovery moves the generation id
forward, so that such an entry is not taken for part of a later transaction, whatever the area
holds. A journal whose head and tail are equal is not recovered at all.
-/

namespace Wpmfs.Journal

open Persist

/-- No entry from the tail to the end of the area carries the generation id that the transaction
placed there gets. -/
def Image.NoneAhead (sbi : SbInfo) (s : Image) : Prop :=
  ∀ le, s.tail ≤ le → le < sbi.jsize → 64 ∣ le → (s.area le).genId ≠ s.genId

/-- Any journal without entries of the next generation. -/
structure Leftover (sbi : SbInfo) (s : Image) : Prop where
  dvd_size : 64 ∣ sbi.jsize
  dvd_head : 64 ∣ s.head
  head_lt : s.head < sbi.jsize
  dvd_tail : 64 ∣ s.tail
  tail_lt : s.tail < sbi.jsize
  next : ∀ le < sbi.jsize, 64 ∣ le → (s.area le).genId ≠ nextGenId s.genId

/-- The record is left alone, and entries are at most invalidated. -/
def Fades (s t : Image) : Prop :=
  t.head = s.head ∧ t.tail = s.tail ∧ t.genId = s.genId ∧
    ∀ le, (t.area le).genId = (s.area le).genId ∨ (t.area le).genId = 0

theorem Fades.refl (s : Image) : Fades s s := ⟨rfl, rfl, rfl, fun _ => .inl rfl⟩

theorem Fades.trans {s t u : Image} (h : Fades s t) (g : Fades t u) : Fades s u := by
  refine ⟨g.1.trans h.1, g.2.1.trans h.2.1, g.2.2.1.trans h.2.2.1, fun le => ?_⟩
  rcases g.2.2.2 le with hsame | hzero
  · rw [hsame]
    exact h.2.2.2 le
  · exact .inr hzero

/-- The walk reached its bound. -/
abbrev Ends {α : Type} (r : Except Fault α) : Prop := r ≠ .error .outOfFuel

theorem always_invalidateGenId (le : Nat) : (invalidateGenId le).Always Fades Ends := by
  refine ⟨fun s => ⟨rfl, rfl, rfl, fun le' => ?_⟩, nofun⟩
  by_cases h : le' = le
  · subst h
    exact .inr (by simp [LogEntry.set])
  · exact .inl (by simp [h])

theorem always_pmfsUndoLogentry (sbi : SbInfo) (le : Nat) :
    (pmfsUndoLogentry sbi le).Always Fades Ends := by
  intro s
  dsimp only
  split
  · split
    · exact nofun
    · exact Prog.Always.forRange nofun fun i =>
        ⟨fun s => ⟨rfl, rfl, rfl, fun _ => .inl rfl⟩, nofun⟩
  · exact nofun

theorem always_pmfsUndoTransaction (sbi : SbInfo) (trans : Transaction) :
    (pmfsUndoTransaction sbi trans).Always Fades Ends := by
  refine Prog.Always.forRange nofun fun i s => ?_
  dsimp only
  split
  · exact always_pmfsUndoLogentry sbi _
  · exact nofun

theorem always_pmfsInvalidateLogentries (trans : Transaction) :
    (pmfsInvalidateLogentries trans).Always Fades Ends :=
  Prog.Always.forRange nofun fun _ => always_invalidateGenId _

variable {sbi : SbInfo} {head tail : Nat}

/-- The bytes between the head and `tail`, going backward from `tail`. -/
def behind (sbi : SbInfo) (head tail : Nat) : Nat :=
  if head ≤ tail then tail - head else sbi.jsize - head + tail

/-- The inner walk ends before it passes the head or the start of the area. -/
theorem recoverWalk_spec (jsize : Nat) (area : Nat → LogEntry) (g : UInt16) (tid : UInt32) (n : Nat)
    {fuel : Nat} (cmt : Bool) (hhead : 64 ∣ head) (htail : 64 ∣ tail) (hfuel : tail / 64 < fuel) :
    Ends (recoverWalk area jsize head g tid fuel tail n cmt) ∧
      ∀ w, recoverWalk area jsize head g tid fuel tail n cmt = .ok w →
        64 ∣ w.tail ∧ w.tail ≤ tail ∧ (head ≤ tail → head ≤ w.tail) := by
  induction fuel generalizing tail n cmt with
  | zero => omega
  | succ fuel ih =>
    rw [recoverWalk]
    split
    · refine ⟨by simp, ?_⟩
      rintro _ ⟨⟩
      exact ⟨htail, le_rfl, id⟩
    split
    · refine ⟨by simp, ?_⟩
      rintro _ ⟨⟩
      exact ⟨htail, le_rfl, id⟩
    dsimp only
    split
    · split
      · exact ⟨by simp, by simp⟩
      · refine ⟨by simp, ?_⟩
        rintro _ ⟨⟩
        exact ⟨htail, le_rfl, id⟩
    rename_i hstop _
    rw [prevLogEntry_of_pos (by omega)]
    obtain ⟨hends, hok⟩ := ih ((n + 1) % 2 ^ 16) (cmt || g == (area tail).genId && (area tail).isFinish)
      (show 64 ∣ tail - 64 by omega) (by omega)
    refine ⟨hends, fun w hw => ?_⟩
    obtain ⟨hdvd, hle, hge⟩ := hok w hw
    omega

/-- Where the recovery of a transaction may leave the scan. -/
def Passes (head tail : Nat) (r : Except Fault Nat) : Prop :=
  Ends r ∧ ∀ t, r = .ok t → 64 ∣ t ∧ t ≤ tail ∧ (head ≤ tail → head ≤ t)

theorem always_pmfsRecoverTransaction (hhead : 64 ∣ head) (htail : 64 ∣ tail)
    (hlt : tail < sbi.jsize) :
    (pmfsRecoverTransaction sbi head tail).Always Fades (Passes head tail) := by
  intro s
  have hfuel : tail / 64 < sbi.slots + 1 := by
    rw [SbInfo.slots]
    omega
  have hfault : ∀ e, Ends (.error e : Except Fault Unit) → Passes head tail (.error e) :=
    fun e he => ⟨fun h => he (by cases h; rfl), nofun⟩
  cases hw : recoverWalk s.area sbi.jsize head (s.area tail).genId (s.area tail).transactionId
      (sbi.slots + 1) tail 0 false with
  | error e =>
    have hends := (recoverWalk_spec sbi.jsize s.area (s.area tail).genId (s.area tail).transactionId 0 false
      hhead htail hfuel).1
    rw [hw] at hends
    dsimp only
    rw [hw]
    exact hfault e fun h => hends (by cases h; rfl)
  | ok w =>
    have hret : (Prog.ret w.tail : JProg Nat).Always Fades (Passes head tail) := by
      refine ⟨nofun, ?_⟩
      rintro _ ⟨⟩
      exact (recoverWalk_spec _ _ _ _ _ _ hhead htail hfuel).2 w hw
    dsimp only
    rw [hw]
    dsimp only
    have hclear : (if (s.area tail).genId = maxGenId then do
        pmfsInvalidateLogentries ⟨(s.area tail).transactionId, w.numEntries, w.numEntries,
          (s.area tail).genId, w.tail⟩
        Prog.ret w.tail
      else Prog.ret w.tail : JProg Nat).Always Fades (Passes head tail) := by
      split
      · exact (always_pmfsInvalidateLogentries _).bind (fun _ _ => hret) hfault
      · exact hret
    split
    · exact (always_pmfsUndoTransaction ..).bind (fun _ _ => hclear) hfault
    · exact hclear

theorem always_recoverLoop {fuel : Nat} {g : UInt16} (hsize : 64 ∣ sbi.jsize) (hhead : 64 ∣ head)
    (hheadlt : head < sbi.jsize) (htail : 64 ∣ tail) (hlt : tail < sbi.jsize)
    (hfuel : behind sbi head tail / 64 < fuel) :
    (recoverLoop sbi head fuel tail g).Always Fades Ends := by
  induction fuel generalizing tail g with
  | zero => omega
  | succ fuel ih =>
    rw [recoverLoop]
    split
    · intro h
      cases h
    · rename_i hne
      generalize (if tail = 0 then prevGenId g else g) = g'
      have hprev : 64 ∣ prevLogEntry sbi.jsize tail ∧ prevLogEntry sbi.jsize tail < sbi.jsize ∧
          behind sbi head (prevLogEntry sbi.jsize tail) + 64 = behind sbi head tail := by
        unfold prevLogEntry behind
        split_ifs <;> omega
      obtain ⟨hdvd, hprevlt, hbehind⟩ := hprev
      intro s
      dsimp only
      split
      · refine (always_pmfsRecoverTransaction hhead hdvd hprevlt).bind (fun t ht => ?_) fun e he h =>
          he.1 (by cases h; rfl)
        obtain ⟨ht, hle, hge⟩ := ht.2 t rfl
        have hcloser : behind sbi head t ≤ behind sbi head (prevLogEntry sbi.jsize tail) := by
          unfold behind
          split_ifs <;> omega
        exact ih ht (by omega) (by omega)
      · split
        · exact (always_invalidateGenId _).bind (fun _ _ => ih hdvd hprevlt (by omega)) fun _ he h =>
            he (by cases h; rfl)
        · exact ih hdvd hprevlt (by omega)

theorem Fades.genId_ne {s t : Image} (h : Fades s t) {le : Nat} {g : UInt16} (hg : g ≠ 0)
    (hle : (s.area le).genId ≠ g) : (t.area le).genId ≠ g := by
  rcases h.2.2.2 le with hsame | hzero
  · rwa [hsame]
  · rw [hzero]
    exact hg.symm

theorem exec_pmfsForwardJournal_genId (sbi : SbInfo) (s : Image) (le : Nat) :
    (((pmfsForwardJournal sbi).exec s).1.area le).genId = (s.area le).genId ∨
      (((pmfsForwardJournal sbi).exec s).1.area le).genId = 0 := by
  rw [exec_pmfsForwardJournal]
  unfold passed
  split
  · exact clearGenIds_genId ..
  · exact .inl rfl

/-- Recovery that gets to its end leaves no entry of the generation it moves to. -/
theorem pmfsRecoverUndoJournal_spec {s : Image} (h : Leftover sbi s) :
    Ends ((pmfsRecoverUndoJournal sbi).exec s).2 ∧
      (((pmfsRecoverUndoJournal sbi).exec s).2 = .ok () →
        ((pmfsRecoverUndoJournal sbi).exec s).1.NoneAhead sbi) := by
  have hfuel : behind sbi s.head s.tail / 64 < sbi.slots + 1 := by
    have := h.head_lt
    have := h.tail_lt
    rw [SbInfo.slots]
    unfold behind
    split_ifs <;> omega
  obtain ⟨hfades, hends⟩ := (always_recoverLoop (g := s.genId) h.dvd_size h.dvd_head h.head_lt
    h.dvd_tail h.tail_lt hfuel).exec Fades.refl Fades.trans s
  rw [pmfsRecoverUndoJournal]
  simp only [Prog.exec, Prog.exec_bind]
  cases hloop : (recoverLoop sbi s.head (sbi.slots + 1) s.tail s.genId).exec s with
  | mk u r =>
    rw [hloop] at hfades hends
    cases r with
    | error e => exact ⟨hends, by simp⟩
    | ok a =>
      have hgen := exec_pmfsForwardJournal_genId sbi u
      dsimp only
      rw [exec_pmfsForwardJournal] at hgen ⊢
      refine ⟨by simp, fun _ le htail hlt hdvd => ?_⟩
      have hne := nextGenId_ne_zero u.genId
      have hu : (u.area le).genId ≠ nextGenId u.genId := by
        rw [hfades.2.2.1] at hne ⊢
        exact hfades.genId_ne hne (h.next le hlt hdvd)
      rcases hgen le with hsame | hzero
      · exact hsame.trans_ne hu
      · exact hzero.trans_ne hne.symm

/-- A journal whose first entry became persistent, and no store after it or only that of the
tail. -/
def torn (tail : Nat) : Image :=
  { emptyImage with
    tail := tail
    area := fun le => if le = 0 then ⟨0, 1, 1, leStart, 0, fun _ => 0⟩ else emptyImage.area le }

theorem leftover_torn {tail : Nat} (hdvd : 64 ∣ tail) (hlt : tail < 65536) :
    Leftover ⟨65536, false⟩ (torn tail) := by
  have hzero : (0 : UInt16) ≠ nextGenId 1 := by decide
  have hone : (1 : UInt16) ≠ nextGenId 1 := by decide
  refine ⟨by decide, Nat.dvd_zero 64, Nat.succ_pos _, hdvd, hlt, fun le _ _ => ?_⟩
  change (if le = 0 then _ else emptyImage.area le).genId ≠ nextGenId 1
  split
  · exact hone
  · exact hzero

end Wpmfs.Journal
