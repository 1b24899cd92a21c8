import Wpmfs.Journal.Basic
import Wpmfs.Library.UndoLog
import Mathlib.Algebra.Order.Ring.Int
import Mathlib.Algebra.Order.Ring.Nat
import Mathlib.Data.Set.Lattice
import Mathlib.Order.CompletePartialOrder

/-!
# Undoing log entries

The entries of a transaction as an undo log, and what `pmfs_undo_transaction` does when the
rest of the system may change everything it does not own.
-/

namespace Wpmfs.Journal

open Persist UndoLog

/-- What a thread can own: a byte of memory, a log entry, or the journal record. -/
inductive Loc where
  | mem (addr : Nat)
  | entry (le : Nat)
  | header

/-- Two images agree on the locations `L`. -/
structure AgreeOn (L : Set Loc) (s t : Image) : Prop where
  mem : ∀ a, .mem a ∈ L → s.mem a = t.mem a
  entry : ∀ le, .entry le ∈ L → s.area le = t.area le
  header : .header ∈ L → s.head = t.head ∧ s.tail = t.tail ∧ s.genId = t.genId

namespace AgreeOn

variable {L M : Set Loc} {s t u : Image}

@[refl] theorem refl (s : Image) : AgreeOn L s s := ⟨fun _ _ => rfl, fun _ _ => rfl, by simp⟩

@[symm] theorem symm (h : AgreeOn L s t) : AgreeOn L t s :=
  ⟨fun a ha => (h.mem a ha).symm, fun le hle => (h.entry le hle).symm, fun hh => by
    obtain ⟨h1, h2, h3⟩ := h.header hh
    exact ⟨h1.symm, h2.symm, h3.symm⟩⟩

@[trans] theorem trans (h : AgreeOn L s t) (g : AgreeOn L t u) : AgreeOn L s u :=
  ⟨fun a ha => (h.mem a ha).trans (g.mem a ha),
    fun le hle => (h.entry le hle).trans (g.entry le hle), fun hh => by
    obtain ⟨h1, h2, h3⟩ := h.header hh
    obtain ⟨g1, g2, g3⟩ := g.header hh
    exact ⟨h1.trans g1, h2.trans g2, h3.trans g3⟩⟩

theorem mono (h : AgreeOn L s t) (hM : M ⊆ L) : AgreeOn M s t :=
  ⟨fun a ha => h.mem a (hM ha), fun le hle => h.entry le (hM hle), fun hh => h.header (hM hh)⟩

theorem eq_of_univ (h : AgreeOn Set.univ s t) : s = t := by
  obtain ⟨hm, he, hh⟩ := h
  obtain ⟨h1, h2, h3⟩ := hh trivial
  have hm' : s.mem = t.mem := funext fun a => hm a trivial
  have he' : s.area = t.area := funext fun le => he le trivial
  cases s
  cases t
  simp_all

end AgreeOn

/-- A store to a byte of `D`. -/
def MemStoreIn (D : Set Nat) (s t : Image) : Prop :=
  ∃ a ∈ D, ∃ v, t = { s with mem := Function.update s.mem a v }

/-- The old bytes a log entry holds. -/
def entryPatch (sbi : SbInfo) (e : LogEntry) : Patch Nat UInt8 := fun a =>
  match wpmfsGetBlock sbi e.addrOffset with
  | none => none
  | some data => if data ≤ a ∧ a < data + e.size.toNat then some (e.data (a - data)) else none

/-- The same, if the entry is valid for the generation `genId`. -/
def validPatch (sbi : SbInfo) (genId : UInt16) (e : LogEntry) : Patch Nat UInt8 :=
  if genId == e.genId then entryPatch sbi e else fun _ => none

/-- The undo log held by the valid ones of `n` entries from the offset `start` on. -/
def logOf (sbi : SbInfo) (genId : UInt16) (area : Nat → LogEntry) (start n : Nat) :
    List (Patch Nat UInt8) :=
  (List.range n).map fun i => validPatch sbi genId (area (start + 64 * i))

/-- Undoing the entry does not use a null pointer. -/
def Mapped (sbi : SbInfo) (e : LogEntry) : Prop :=
  e.size = 0 ∨ (wpmfsGetBlock sbi e.addrOffset).isSome

section

variable {sbi : SbInfo} {genId : UInt16} {area area' : Nat → LogEntry} {start n : Nat}

@[simp] theorem logOf_zero : logOf sbi genId area start 0 = [] := rfl

theorem logOf_succ : logOf sbi genId area start (n + 1) =
    logOf sbi genId area start n ++
      [validPatch sbi genId (area (start + 64 * n))] := by
  simp [logOf, List.range_succ]

theorem logOf_succ' : logOf sbi genId area start (n + 1) =
    validPatch sbi genId (area start) :: logOf sbi genId area (start + 64) n := by
  simp only [logOf, List.range_succ_eq_map, List.map_cons, List.map_map]
  congr 1
  refine List.map_congr_left fun i _ => ?_
  simp only [Function.comp, Nat.mul_succ]
  congr 2
  omega

theorem logOf_congr
    (h : ∀ i < n, area (start + 64 * i) = area' (start + 64 * i)) :
    logOf sbi genId area start n = logOf sbi genId area' start n :=
  List.map_congr_left fun i hi => by rw [h i (by simpa using hi)]

end

theorem entryPatch_of_size_zero {sbi : SbInfo} {e : LogEntry} (h : e.size = 0) (a : Nat) :
    entryPatch sbi e a = none := by
  unfold entryPatch
  split
  · rfl
  · rw [if_neg (by simp [h])]

theorem restore_entryPatch_of_size_zero {sbi : SbInfo} {e : LogEntry} (h : e.size = 0)
    (m : Nat → UInt8) : (entryPatch sbi e).restore m = m := by
  funext a
  simp [Patch.restore, entryPatch_of_size_zero h]

/-- One entry is copied back; the environment may change what is outside `L`. -/
theorem safe_pmfsUndoLogentry {sbi : SbInfo} {L : Set Loc} {s : Image} {le : Nat}
    (hle : .entry le ∈ L) (hm : Mapped sbi (s.area le)) :
    (pmfsUndoLogentry sbi le).Safe (AgreeOn L)
      (MemStoreIn (dom [entryPatch sbi (s.area le)]))
      (fun _ => AgreeOn L
        { s with mem := (entryPatch sbi (s.area le)).restore s.mem }) s := by
  intro t ht
  have he : t.area le = s.area le := (ht.entry le hle).symm
  dsimp only
  rw [he]
  by_cases hz : (s.area le).size > 0
  · rw [if_pos hz]
    have hz' : (s.area le).size ≠ 0 := fun h => absurd hz (by simp [h])
    obtain ⟨data, hd⟩ := Option.isSome_iff_exists.1 (hm.resolve_left hz')
    rw [hd]
    dsimp only
    -- after `i` bytes, the bytes below `data + i` are the old ones
    refine Prog.Safe.mono id id (fun {_ u} hu => ?_) (Prog.Safe.forRange (fun i _ u => AgreeOn L
      { s with mem := fun a => if data ≤ a ∧ a < data + i then (s.area le).data (a - data)
                               else s.mem a } u)
      AgreeOn.refl (fun i b u v huv hu => hu.trans huv) ?_ ?_)
    · refine AgreeOn.trans ?_ hu
      refine ⟨fun a _ => ?_, fun _ _ => rfl, by simp⟩
      simp only [Patch.restore, entryPatch, hd]
      split <;> rfl
    · refine AgreeOn.trans (t := s) ⟨fun a _ => ?_, fun _ _ => rfl, by simp⟩ ht
      exact if_neg (by omega)
    · intro i hi _ u hu v huv
      have huv' := hu.trans huv
      have hev : v.area le = s.area le := (huv'.entry le hle).symm
      refine ⟨⟨data + i, ?_, (v.area le).data i, rfl⟩, fun w hvw => ?_⟩
      · rw [mem_dom_singleton]
        simp [entryPatch, hd, hi]
      · refine AgreeOn.trans ⟨fun a ha => ?_, fun l hl => ?_, fun hh => ?_⟩ hvw
        · by_cases hai : a = data + i
          · subst hai
            simp [hev]
          · have hv := huv'.mem a ha
            simp only [apply_mem, Function.update_of_ne hai, ← hv]
            grind
        · exact huv'.entry l hl
        · exact huv'.header hh
  · rw [if_neg hz]
    have hz' : (s.area le).size = 0 := by
      have := UInt8.not_lt.1 hz
      grind
    intro u hu
    rw [restore_entryPatch_of_size_zero hz']
    exact ht.trans hu

/-- Undo of a whole transaction: its valid entries are an undo log. -/
theorem safe_pmfsUndoTransaction {sbi : SbInfo} {L : Set Loc} {s : Image} {trans : Transaction}
    (hle : ∀ i < trans.numUsed, .entry (trans.le i) ∈ L)
    (hm : ∀ i < trans.numUsed, (s.area (trans.le i)).genId = trans.genId →
      Mapped sbi (s.area (trans.le i))) :
    (pmfsUndoTransaction sbi trans).Safe (AgreeOn L)
      (MemStoreIn (dom (logOf sbi trans.genId s.area trans.start trans.numUsed)))
      (fun _ => AgreeOn L { s with
        mem := undo (logOf sbi trans.genId s.area trans.start trans.numUsed) s.mem }) s := by
  -- after `i` entries, the newest `i` entries have been undone
  refine Prog.Safe.mono id id (fun {_ u} hu => ?_) (Prog.Safe.forRange (fun i _ u => AgreeOn L
    { s with mem := undo (logOf sbi trans.genId s.area
        (trans.start + 64 * (trans.numUsed - i)) i) s.mem } u)
    AgreeOn.refl (fun i b u v huv hu => hu.trans huv) (AgreeOn.refl s) ?_)
  · simpa using hu
  · intro i hi _ u hu v huv
    have huv' := hu.trans huv
    have hlt : trans.numUsed - 1 - i < trans.numUsed := by omega
    have hev : v.area (trans.le (trans.numUsed - 1 - i)) =
        s.area (trans.le (trans.numUsed - 1 - i)) := (huv'.entry _ (hle _ hlt)).symm
    have hle' : trans.le (trans.numUsed - 1 - i) =
        trans.start + 64 * (trans.numUsed - (i + 1)) := by
      unfold Transaction.le
      congr 2
      omega
    have hs : trans.le (trans.numUsed - 1 - i) + 64 =
        trans.start + 64 * (trans.numUsed - i) := by
      unfold Transaction.le
      omega
    -- the memory after this iteration, from the memory before it
    have hnext : ∀ {w : Image}, AgreeOn L { v with mem := (validPatch sbi trans.genId
        (s.area (trans.le (trans.numUsed - 1 - i)))).restore v.mem } w →
        AgreeOn L { s with mem := undo (logOf sbi trans.genId s.area
          (trans.start + 64 * (trans.numUsed - (i + 1))) (i + 1)) s.mem } w := by
      intro w hw
      refine AgreeOn.trans ?_ hw
      refine ⟨fun a ha => ?_, fun l hl => huv'.entry l hl, huv'.header⟩
      have hv := huv'.mem a ha
      rw [logOf_succ', ← hle']
      simp only [undo_cons, Patch.restore, hs] at hv ⊢
      rw [hv]
    dsimp only
    rw [hev]
    by_cases hg : (trans.genId == (s.area (trans.le (trans.numUsed - 1 - i))).genId) = true
    · rw [if_pos hg]
      have hp : validPatch sbi trans.genId (s.area (trans.le (trans.numUsed - 1 - i))) =
          entryPatch sbi (s.area (trans.le (trans.numUsed - 1 - i))) := if_pos hg
      refine Prog.Safe.mono id ?_ (fun {_ w} hw => hnext ?_)
        (safe_pmfsUndoLogentry (hle _ hlt) (hev ▸ hm _ hlt (beq_iff_eq.1 hg).symm))
      · rintro a b ⟨x, hx, w, rfl⟩
        refine ⟨x, ?_, w, rfl⟩
        rw [hev, mem_dom_singleton] at hx
        exact ⟨_, List.mem_map.2 ⟨_, List.mem_range.2 hlt, rfl⟩, by rwa [← hp] at hx⟩
      · rwa [hev, ← hp] at hw
    · rw [if_neg hg]
      refine fun w hw => hnext ?_
      rwa [validPatch, if_neg hg, restore_none]

/-- The same for a thread that runs alone. -/
theorem exec_pmfsUndoTransaction {sbi : SbInfo} {s : Image} {trans : Transaction}
    (hm : ∀ i < trans.numUsed, (s.area (trans.le i)).genId = trans.genId →
      Mapped sbi (s.area (trans.le i))) :
    (pmfsUndoTransaction sbi trans).exec s = ({ s with
      mem := undo (logOf sbi trans.genId s.area trans.start trans.numUsed) s.mem }, .ok ()) := by
  have hs : (pmfsUndoTransaction sbi trans).Safe Eq (fun _ _ => True) _ s :=
    Prog.Safe.mono (fun h => h ▸ AgreeOn.refl _) (fun _ => trivial) id
      (safe_pmfsUndoTransaction (L := Set.univ) (fun _ _ => trivial) hm)
  obtain ⟨t, _, he, ht⟩ := hs.exec
  rw [he, ht.eq_of_univ]

end Wpmfs.Journal
