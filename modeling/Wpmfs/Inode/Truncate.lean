import Mathlib.Algebra.Order.Ring.Int
import Mathlib.Algebra.Order.Ring.Nat
import Mathlib.Logic.Relation
import Wpmfs.Library.Chain
import Wpmfs.Library.Persist

/-!
# The truncate list

Inodes that a mount after a power failure has to finish with are on a list, `s_truncate` in memory
and a chain of inode numbers in persistent memory. The link of an inode lies in its slot of the
inode table. The slot is free for another inode as soon as `pmfs_free_inode` is done, while the old
inode stays on the list until its eviction is.

Inodes in memory are named apart from their numbers, since two of them may have the same one.
-/

namespace Wpmfs.Inode

open Persist

/-- Where an inode in memory is in its life. -/
inductive Phase where
  | absent
  | live
  /-- `pmfs_free_inode` freed its slot, and its eviction goes on. -/
  | freed
deriving DecidableEq

/-- The inodes in memory, the slots that are in use, and the truncate list. -/
structure Truncates where
  iNo : ℕ → ℕ
  phase : ℕ → Phase
  inUse : ℕ → Bool
  sTruncate : List ℕ
  iNextTruncate : ℕ → ℕ
  iTruncatesize : ℕ → ℕ
  head : ℕ

/-- A store, to memory or to persistent memory, is given by the state it leaves. -/
instance : StoreModel Truncates Truncates := ⟨fun _ t => t⟩

abbrev TProg := Prog Truncates Truncates Empty Unit

namespace Truncates

/-- The member of a list before `x`. -/
def prev : List ℕ → ℕ → Option ℕ
  | y :: i :: l, x => if i = x then some y else prev (i :: l) x
  | _, _ => none

/-- `pmfs_truncate_add`. -/
def pmfsTruncateAdd (x size : ℕ) : TProg :=
  .get fun s =>
    if x ∈ s.sTruncate then .ret () else do
      Prog.store fun s =>
        { s with iNextTruncate := Function.update s.iNextTruncate (s.iNo x) s.head }
      Prog.store fun s =>
        { s with iTruncatesize := Function.update s.iTruncatesize (s.iNo x) size }
      Prog.store fun s => { s with head := s.iNo x }
      Prog.store fun s => { s with sTruncate := x :: s.sTruncate }

/-- `pmfs_truncate_del`. -/
def pmfsTruncateDel (x : ℕ) : TProg :=
  .get fun s =>
    if x ∈ s.sTruncate then do
      let inoNext := s.iNextTruncate (s.iNo x)
      Prog.store fun s => { s with sTruncate := s.sTruncate.erase x }
      match prev s.sTruncate x with
      | none => Prog.store fun s => { s with head := inoNext }
      | some y => Prog.store fun s =>
          { s with iNextTruncate := Function.update s.iNextTruncate (s.iNo y) inoNext }
    else .ret ()

/-- The loop of `pmfs_recover_truncate_list`: the inodes it visits, if it visits at most `n`. -/
def pmfsRecoverTruncateList (n : ℕ) (s : Truncates) : Option (List ℕ) :=
  followLinks s.iNextTruncate 0 n s.head

/-- What happens to inodes: one is created in a slot, or read from it; it is put on the list or
taken off it; its eviction frees its slot, and ends. -/
inductive Call where
  | create (x ino : ℕ)
  | iget (x ino : ℕ)
  | truncateAdd (x size : ℕ)
  | truncateDel (x : ℕ)
  | freeInode (x : ℕ)
  | evict (x : ℕ)

def Call.prog : Call → TProg
  | .create x ino => Prog.store fun s =>
      { s with
        iNo := Function.update s.iNo x ino
        phase := Function.update s.phase x .live
        inUse := Function.update s.inUse ino true }
  | .iget x ino => Prog.store fun s =>
      { s with iNo := Function.update s.iNo x ino, phase := Function.update s.phase x .live }
  | .truncateAdd x size => pmfsTruncateAdd x size
  | .truncateDel x => pmfsTruncateDel x
  | .freeInode x => Prog.store fun s =>
      { s with
        phase := Function.update s.phase x .freed
        inUse := Function.update s.inUse (s.iNo x) false }
  | .evict x => do
      pmfsTruncateDel x
      Prog.store fun s => { s with phase := Function.update s.phase x .absent }

/-- New inodes get free slots, an inode is read once, and an inode is put on the list before its
eviction. -/
def Legal (s : Truncates) : Call → Prop
  | .create x ino => s.phase x = .absent ∧ ino ≠ 0 ∧ s.inUse ino = false
  | .iget x ino => s.phase x = .absent ∧ ino ≠ 0 ∧ s.inUse ino = true ∧
      ∀ y, s.phase y = .live → s.iNo y ≠ ino
  | .truncateAdd x _ => s.phase x = .live
  | .truncateDel x => s.phase x = .live
  | .freeInode x => s.phase x = .live
  | .evict x => s.phase x ≠ .absent

/-- The slot of the inode is not that of an inode that is still on the list. -/
def Vacated (s : Truncates) (x : ℕ) : Prop :=
  ∀ y ∈ s.sTruncate, s.phase y = .freed → s.iNo y ≠ s.iNo x

def KeepsChain (s : Truncates) : Call → Prop
  | .truncateAdd x _ => s.Vacated x
  | _ => True

/-- The numbers of the inodes on the list. -/
def numbers (s : Truncates) : List ℕ := s.sTruncate.map s.iNo

/-- The chain visits the inodes on the list in order, each once, and ends. -/
structure Mirrored (s : Truncates) : Prop where
  visits : Linked s.iNextTruncate 0 s.head s.numbers
  once : s.numbers.Nodup

inductive Step (ok : Truncates → Call → Prop) (s s' : Truncates) : Prop
  | mk (c : Call) (hlegal : s.Legal c) (hok : ok s c) (hexec : (c.prog.exec s).1 = s')

abbrev Reaches (ok : Truncates → Call → Prop) : Truncates → Truncates → Prop :=
  Relation.ReflTransGen (Step ok)

/-- After a mount, before any inode is read. -/
structure Fresh (s : Truncates) : Prop where
  absent : ∀ x, s.phase x = .absent
  empty : s.sTruncate = []
  head : s.head = 0

/-! ## The invariant -/

variable {s s' t : Truncates} {x y size : ℕ} {c : Call} {l pre : List ℕ}

structure Sound (s : Truncates) : Prop where
  visits : Linked s.iNextTruncate 0 s.head s.numbers
  onList : ∀ x ∈ s.sTruncate, s.phase x ≠ .absent
  nonzero : ∀ x, s.phase x ≠ .absent → s.iNo x ≠ 0
  used : ∀ x, s.phase x = .live → s.inUse (s.iNo x) = true
  apart : ∀ x y, s.phase x = .live → s.phase y = .live → s.iNo x = s.iNo y → x = y

theorem Sound.toMirrored (h : s.Sound) : s.Mirrored := ⟨h.visits, h.visits.nodup⟩

theorem Fresh.sound (h : s.Fresh) : s.Sound := by
  refine ⟨?_, ?_, fun x hx => absurd (h.absent x) hx, fun x hx => ?_, fun x _ hx => ?_⟩
  · simp [numbers, h.empty, h.head]
  · simp [h.empty]
  · rw [h.absent] at hx
    cases hx
  · rw [h.absent] at hx
    cases hx

theorem prev_of_notMem (hx : x ∉ l) : prev (y :: l) x = none := by
  induction l generalizing y with
  | nil => rfl
  | cons i l ih =>
    simp only [List.mem_cons, not_or] at hx
    rw [prev, if_neg (Ne.symm hx.1), ih hx.2]

theorem prev_append (hy : y ≠ x) (hpre : x ∉ pre) : prev (pre ++ y :: x :: l) x = some y := by
  induction pre with
  | nil => exact if_pos rfl
  | cons z pre ih =>
    simp only [List.mem_cons, not_or] at hpre
    cases pre with
    | nil => exact (if_neg hy).trans (ih hpre.2)
    | cons w pre =>
      have hw : x ≠ w := fun hw => hpre.2 (hw ▸ List.mem_cons_self ..)
      exact (if_neg hw.symm).trans (ih hpre.2)

/-- Only the list changes, into `l`. -/
structure Relisted (s : Truncates) (l : List ℕ) (t : Truncates) : Prop where
  iNo : t.iNo = s.iNo
  phase : t.phase = s.phase
  inUse : t.inUse = s.inUse
  sTruncate : t.sTruncate = l
  visits : Linked t.iNextTruncate 0 t.head (l.map s.iNo)

theorem Relisted.numbers (h : s.Relisted l t) : t.numbers = l.map s.iNo := by
  rw [Truncates.numbers, h.sTruncate, h.iNo]

theorem Sound.relisted (h : s.Sound) (ht : s.Relisted l t)
    (hl : ∀ x ∈ l, s.phase x ≠ .absent) : t.Sound := by
  obtain ⟨hiNo, hphase, hinUse, hlist, hvisits⟩ := ht
  refine ⟨?_, ?_, ?_, ?_, ?_⟩
  · rwa [numbers, hlist, hiNo]
  · rwa [hlist, hphase]
  · rw [hphase, hiNo]
    exact h.nonzero
  · rw [hphase, hiNo, hinUse]
    exact h.used
  · rw [hphase, hiNo]
    exact h.apart

/-- The program changes the list into `l`, and at every moment the chain is that before or that
after. -/
structure Relists (s : Truncates) (l : List ℕ) (p : TProg) : Prop where
  exec : s.Relisted l (p.exec s).1
  crash : ∀ c, p.CrashState s c →
    Linked c.iNextTruncate 0 c.head s.numbers ∨ Linked c.iNextTruncate 0 c.head (l.map s.iNo)

theorem Sound.relists_ret (h : s.Sound) : s.Relists s.sTruncate (.ret ()) := by
  refine ⟨⟨rfl, rfl, rfl, rfl, h.visits⟩, ?_⟩
  rintro c rfl
  exact .inl h.visits

/-- An inode is on the list under its number, or its number is not on the list. -/
theorem Sound.number_notMem (h : s.Sound) (hx : s.phase x = .live) (hvacated : s.Vacated x)
    (hout : x ∉ s.sTruncate) : s.iNo x ∉ s.numbers := by
  intro hmem
  obtain ⟨y, hy, hno⟩ := List.mem_map.mp hmem
  cases hphase : s.phase y with
  | absent => exact h.onList y hy hphase
  | live => exact hout (h.apart y x hphase hx hno ▸ hy)
  | freed => exact hvacated y hy hphase hno

theorem Sound.relists_add (h : s.Sound) (size : ℕ) (hx : s.phase x = .live)
    (hvacated : s.Vacated x) :
    ∃ l, s.Relists l (pmfsTruncateAdd x size) ∧ ∀ y ∈ l, s.phase y ≠ .absent := by
  by_cases hmem : x ∈ s.sTruncate
  · refine ⟨s.sTruncate, ?_, h.onList⟩
    have hret := h.relists_ret
    exact ⟨by simpa [pmfsTruncateAdd, Prog.exec, hmem] using hret.exec,
      by simpa [pmfsTruncateAdd, Prog.CrashState, hmem] using hret.crash⟩
  · have hlive : s.phase x ≠ .absent := by simp [hx]
    have hnotMem := h.number_notMem hx hvacated hmem
    have hold := h.visits.update (v := s.head) hnotMem
    have hnew := h.visits.insert hnotMem (h.nonzero x hlive)
    refine ⟨x :: s.sTruncate, ⟨?_, fun c hc => ?_⟩, ?_⟩
    · simp only [pmfsTruncateAdd, Prog.exec, if_neg hmem]
      exact ⟨rfl, rfl, rfl, rfl, hnew⟩
    · simp only [pmfsTruncateAdd, Prog.CrashState, if_neg hmem] at hc
      obtain rfl | rfl | rfl | rfl | rfl := hc
      · exact .inl h.visits
      · exact .inl hold
      · exact .inl hold
      · exact .inr hnew
      · exact .inr hnew
    · rintro y hy
      rcases List.mem_cons.mp hy with rfl | hy
      · exact hlive
      · exact h.onList y hy

/-- The condition is the exact one for a call that puts an inode on the list. -/
theorem Sound.mirrored_add_iff (h : s.Sound) (hx : s.phase x = .live) (hout : x ∉ s.sTruncate) :
    ((pmfsTruncateAdd x size).exec s).1.Mirrored ↔ s.Vacated x := by
  constructor
  · rintro hmirrored y hy - hno
    have honce := hmirrored.once
    simp only [pmfsTruncateAdd, Prog.exec, if_neg hout] at honce
    exact (List.nodup_cons.mp honce).1 (List.mem_map.mpr ⟨y, hy, hno⟩)
  · intro hvacated
    obtain ⟨l, hrelists, hl⟩ := h.relists_add size hx hvacated
    exact (h.relisted hrelists.exec hl).toMirrored

theorem Sound.relists_del (h : s.Sound) :
    ∃ l, s.Relists l (pmfsTruncateDel x) ∧ (∀ y ∈ l, s.phase y ≠ .absent) ∧ x ∉ l := by
  by_cases hmem : x ∈ s.sTruncate
  · have hnodup : s.sTruncate.Nodup := h.visits.nodup.of_map
    have hvisits := h.visits
    obtain ⟨pre, post, hlist, hpre⟩ := List.eq_append_cons_of_mem hmem
    have herase : s.sTruncate.erase x = pre ++ post := by
      rw [hlist, List.erase_append_right _ hpre, List.erase_cons_head]
    have hout : x ∉ pre ++ post := herase ▸ hnodup.not_mem_erase
    refine ⟨pre ++ post, ?_, fun y hy => h.onList y (List.mem_of_mem_erase (herase ▸ hy)), hout⟩
    rw [numbers, hlist] at hvisits
    rcases List.eq_nil_or_concat pre with rfl | ⟨pre, y, rfl⟩
    · have hprev : prev s.sTruncate x = none := by
        rw [hlist] at hnodup ⊢
        exact prev_of_notMem (List.nodup_cons.mp hnodup).1
      have hnew := hvisits.2.2
      refine ⟨?_, fun c hc => ?_⟩
      · simp only [pmfsTruncateDel, Prog.exec, if_pos hmem, hprev]
        exact ⟨rfl, rfl, rfl, herase, hnew⟩
      · simp only [pmfsTruncateDel, Prog.CrashState, if_pos hmem, hprev] at hc
        obtain rfl | rfl | rfl := hc
        · exact .inl h.visits
        · exact .inl h.visits
        · exact .inr hnew
    · simp only [List.concat_eq_append, List.append_assoc, List.singleton_append] at hlist hvisits
      simp only [List.concat_eq_append, List.append_assoc, List.singleton_append] at herase hpre ⊢
      have hyx : y ≠ x := by
        rintro rfl
        exact hpre (by simp)
      have hprev : prev s.sTruncate x = some y := by
        rw [hlist]
        exact prev_append hyx fun hx => hpre (List.mem_append_left _ hx)
      have hnew : Linked (Function.update s.iNextTruncate (s.iNo y) (s.iNextTruncate (s.iNo x))) 0
          s.head ((pre ++ y :: post).map s.iNo) := by
        rw [List.map_append, List.map_cons] at hvisits ⊢
        exact hvisits.unlink
      refine ⟨?_, fun c hc => ?_⟩
      · simp only [pmfsTruncateDel, Prog.exec, if_pos hmem, hprev]
        exact ⟨rfl, rfl, rfl, herase, hnew⟩
      · simp only [pmfsTruncateDel, Prog.CrashState, if_pos hmem, hprev] at hc
        obtain rfl | rfl | rfl := hc
        · exact .inl h.visits
        · exact .inl h.visits
        · exact .inr hnew
  · refine ⟨s.sTruncate, ?_, h.onList, hmem⟩
    have hret := h.relists_ret
    exact ⟨by simpa [pmfsTruncateDel, Prog.exec, hmem] using hret.exec,
      by simpa [pmfsTruncateDel, Prog.CrashState, hmem] using hret.crash⟩

/-! ## Runs -/

/-- An inode comes into memory, with the number of a slot that no live inode has. -/
theorem Sound.enter (h : s.Sound) {ino : ℕ} (inUse : ℕ → Bool) (habsent : s.phase x = .absent)
    (hne : ino ≠ 0) (hother : ∀ y, s.phase y = .live → s.iNo y ≠ ino)
    (hold : ∀ i, s.inUse i = true → inUse i = true) (hnew : inUse ino = true) :
    Sound { s with
      iNo := Function.update s.iNo x ino
      phase := Function.update s.phase x .live
      inUse := inUse } ∧
      s.sTruncate.map (Function.update s.iNo x ino) = s.numbers := by
  have hout : x ∉ s.sTruncate := fun hx => h.onList x hx habsent
  have hnumbers : s.sTruncate.map (Function.update s.iNo x ino) = s.numbers :=
    List.map_congr_left fun y hy => Function.update_of_ne (ne_of_mem_of_not_mem hy hout) ..
  refine ⟨⟨?_, ?_, ?_, ?_, ?_⟩, hnumbers⟩ <;> dsimp only
  · rw [numbers, hnumbers]
    exact h.visits
  · intro y hy
    have hyx := ne_of_mem_of_not_mem hy hout
    rw [Function.update_of_ne hyx]
    exact h.onList y hy
  · intro y hy
    by_cases hyx : y = x
    · simpa [hyx] using hne
    · simp only [Function.update_of_ne hyx] at hy ⊢
      exact h.nonzero y hy
  · intro y hy
    by_cases hyx : y = x
    · simpa [hyx] using hnew
    · simp only [Function.update_of_ne hyx] at hy ⊢
      exact hold _ (h.used y hy)
  · intro y z hy hz hyz
    by_cases hyx : y = x <;> by_cases hzx : z = x
    · rw [hyx, hzx]
    · simp only [hyx, Function.update_self, Function.update_of_ne hzx] at hz hyz
      exact absurd hyz.symm (hother z hz)
    · simp only [hzx, Function.update_self, Function.update_of_ne hyx] at hy hyz
      exact absurd hyz (hother y hy)
    · simp only [Function.update_of_ne hyx, Function.update_of_ne hzx] at hy hz hyz
      exact h.apart y z hy hz hyz

/-- The eviction of a live inode frees its slot. -/
theorem Sound.freeInode (h : s.Sound) (hx : s.phase x = .live) :
    Sound { s with
      phase := Function.update s.phase x .freed
      inUse := Function.update s.inUse (s.iNo x) false } := by
  have hlive : ∀ y, Function.update s.phase x .freed y = .live → y ≠ x ∧ s.phase y = .live := by
    intro y hy
    by_cases hyx : y = x
    · simp [hyx] at hy
    · rw [Function.update_of_ne hyx] at hy
      exact ⟨hyx, hy⟩
  refine ⟨h.visits, ?_, ?_, ?_, ?_⟩ <;> dsimp only
  · intro y hy
    by_cases hyx : y = x
    · simp [hyx]
    · rw [Function.update_of_ne hyx]
      exact h.onList y hy
  · intro y hy
    by_cases hyx : y = x
    · exact hyx ▸ h.nonzero x (by simp [hx])
    · rw [Function.update_of_ne hyx] at hy
      exact h.nonzero y hy
  · intro y hy
    obtain ⟨hyx, hy⟩ := hlive y hy
    have hno : s.iNo y ≠ s.iNo x := fun hno => hyx (h.apart y x hy hx hno)
    rw [Function.update_of_ne hno]
    exact h.used y hy
  · exact fun y z hy hz hyz => h.apart y z (hlive y hy).2 (hlive z hz).2 hyz

/-- An inode that is not on the list leaves memory. -/
theorem Sound.leave (h : s.Sound) (hx : x ∉ s.sTruncate) :
    Sound { s with phase := Function.update s.phase x .absent } := by
  have hphase : ∀ y, Function.update s.phase x .absent y ≠ .absent →
      Function.update s.phase x .absent y = s.phase y := by
    intro y hy
    by_cases hyx : y = x
    · simp [hyx] at hy
    · rw [Function.update_of_ne hyx]
  have hlive : ∀ y, Function.update s.phase x .absent y = .live → s.phase y = .live := by
    intro y hy
    rw [← hphase y (by simp [hy]), hy]
  refine ⟨h.visits, ?_, ?_, fun y hy => h.used y (hlive y hy),
    fun y z hy hz => h.apart y z (hlive y hy) (hlive z hz)⟩ <;> dsimp only
  · intro y hy
    have hyx := ne_of_mem_of_not_mem hy hx
    rw [Function.update_of_ne hyx]
    exact h.onList y hy
  · intro y hy
    rw [hphase y hy] at hy
    exact h.nonzero y hy

/-- A call keeps the invariant, and cut off anywhere it leaves the chain of before or of after. -/
theorem Sound.step (h : s.Sound) (hlegal : s.Legal c) (hok : s.KeepsChain c) :
    (c.prog.exec s).1.Sound ∧ ∀ t, c.prog.CrashState s t →
      Linked t.iNextTruncate 0 t.head s.numbers ∨
        Linked t.iNextTruncate 0 t.head (c.prog.exec s).1.numbers := by
  cases c with
  | create x ino =>
    obtain ⟨habsent, hne, hfree⟩ := hlegal
    have hother : ∀ y, s.phase y = .live → s.iNo y ≠ ino := by
      rintro y hy rfl
      simp [h.used y hy] at hfree
    obtain ⟨hsound, -⟩ := h.enter (Function.update s.inUse ino true) habsent hne hother
      (fun i hi => by by_cases hin : i = ino <;> simp [hin, hi]) (by simp)
    refine ⟨hsound, ?_⟩
    rintro t (rfl | rfl)
    · exact .inl h.visits
    · exact .inr hsound.visits
  | iget x ino =>
    obtain ⟨habsent, hne, hused, hother⟩ := hlegal
    obtain ⟨hsound, -⟩ := h.enter s.inUse habsent hne hother (fun _ => id) hused
    refine ⟨hsound, ?_⟩
    rintro t (rfl | rfl)
    · exact .inl h.visits
    · exact .inr hsound.visits
  | truncateAdd x size =>
    obtain ⟨l, hrelists, hl⟩ := h.relists_add size hlegal hok
    exact ⟨h.relisted hrelists.exec hl, fun t ht => hrelists.exec.numbers ▸ hrelists.crash t ht⟩
  | truncateDel x =>
    obtain ⟨l, hrelists, hl, -⟩ := h.relists_del
    exact ⟨h.relisted hrelists.exec hl, fun t ht => hrelists.exec.numbers ▸ hrelists.crash t ht⟩
  | freeInode x =>
    refine ⟨h.freeInode hlegal, ?_⟩
    rintro t (rfl | rfl)
    · exact .inl h.visits
    · exact .inl h.visits
  | evict x =>
    obtain ⟨l, hrelists, hl, hx⟩ := h.relists_del
    have hdel := h.relisted hrelists.exec hl
    have hout : x ∉ ((pmfsTruncateDel x).exec s).1.sTruncate := hrelists.exec.sTruncate ▸ hx
    have hnumbers := hrelists.exec.numbers
    have hcrash := hrelists.crash
    rw [Call.prog, Prog.exec_bind]
    cases hexec : (pmfsTruncateDel x).exec s with
    | mk u r =>
      cases r with
      | error e => exact e.elim
      | ok _ =>
        rw [hexec] at hdel hout hnumbers
        refine ⟨hdel.leave hout, fun t ht => ?_⟩
        change _ ∨ Linked t.iNextTruncate 0 t.head u.numbers
        rw [hnumbers]
        rcases (Prog.crashState_bind ..).mp ht with ht | ⟨u', a, hu', ht⟩
        · exact hcrash t ht
        · obtain ⟨rfl, -⟩ := Prod.mk.inj (hexec.symm.trans hu')
          have hu := hdel.visits
          rw [hnumbers] at hu
          rcases ht with rfl | rfl
          · exact .inr hu
          · exact .inr hu

theorem Sound.reaches (h : s.Sound) (hrun : Reaches KeepsChain s s') : s'.Sound := by
  induction hrun with
  | refl => exact h
  | tail _ hstep ih =>
    obtain ⟨c, hlegal, hok, rfl⟩ := hstep
    exact (ih.step hlegal hok).1

/-- A mount on which no inode was read yet, and no slot is in use. -/
def blank : Truncates := ⟨fun _ => 0, fun _ => .absent, fun _ => false, [], fun _ => 0, fun _ => 0, 0⟩

theorem fresh_blank : blank.Fresh := ⟨fun _ => rfl, rfl, rfl⟩

/-- The inode 0 is created in the slot 128 and unlinked. -/
def unlinked : Truncates :=
  ((Call.truncateAdd 0 0).prog.exec ((Call.create 0 128).prog.exec blank).1).1

theorem reaches_unlinked {ok : Truncates → Call → Prop} (hcreate : ok blank (.create 0 128))
    (hadd : ok ((Call.create 0 128).prog.exec blank).1 (.truncateAdd 0 0)) :
    Reaches ok blank unlinked :=
  .tail (.single ⟨.create 0 128, ⟨rfl, by decide, rfl⟩, hcreate, rfl⟩)
    ⟨.truncateAdd 0 0, rfl, hadd, rfl⟩

/-- The slot is freed by the eviction of the inode 0, taken by the inode 1, and that is unlinked
before the eviction is over. -/
def reused : Truncates :=
  let s := ((Call.freeInode 0).prog.exec unlinked).1
  let s := ((Call.create 1 128).prog.exec s).1
  ((Call.truncateAdd 1 0).prog.exec s).1

theorem reused_loops : reused.iNextTruncate 128 = 128 ∧ reused.head = 128 := by
  constructor <;> rfl

end Truncates

end Wpmfs.Inode
