import Mathlib.Algebra.Order.Ring.Int
import Mathlib.Algebra.Order.Ring.Nat
import Mathlib.Data.List.Basic
import Mathlib.Data.Set.Basic
import Mathlib.Logic.Function.Basic
import Mathlib.Order.CompletePartialOrder

/-!
# Undo logs

A memory is a function from locations to values. A patch holds the old values of some
locations; an undo log is a list of patches, oldest first. Undoing applies the newest patch
first, so the oldest value of each location wins. `Restores log old mem` says that the log
takes `mem` back to `old`; it is kept by logging current values and by storing to logged
locations.
-/

namespace UndoLog

variable {α β : Type}

/-- The recorded values of some locations. -/
abbrev Patch (α β : Type) := α → Option β

/-- Write the recorded values back. -/
def Patch.restore (p : Patch α β) (mem : α → β) : α → β := fun a => (p a).getD (mem a)

/-- Apply the patches of a log, newest first. -/
def undo (log : List (Patch α β)) (mem : α → β) : α → β := log.foldr Patch.restore mem

/-- The locations a log holds a value of. -/
def dom (log : List (Patch α β)) : Set α := {a | ∃ p ∈ log, (p a).isSome}

/-- The log takes the values of `mem` on `S` back to those of `old`. -/
def Restores (S : Set α) (log : List (Patch α β)) (old mem : α → β) : Prop :=
  ∀ a ∈ S, undo log mem a = old a

@[simp] theorem restore_none (mem : α → β) : Patch.restore (fun _ => none) mem = mem := rfl

@[simp] theorem undo_nil (mem : α → β) : undo [] mem = mem := rfl

@[simp] theorem undo_cons (p : Patch α β) (log : List (Patch α β)) (mem : α → β) :
    undo (p :: log) mem = p.restore (undo log mem) := rfl

theorem undo_append (log log' : List (Patch α β)) (mem : α → β) :
    undo (log ++ log') mem = undo log (undo log' mem) := by
  simp [undo, List.foldr_append]

@[simp] theorem dom_nil : dom ([] : List (Patch α β)) = ∅ := by
  simp [dom]

theorem mem_dom_append {log log' : List (Patch α β)} {a : α} :
    a ∈ dom (log ++ log') ↔ a ∈ dom log ∨ a ∈ dom log' := by
  simp only [dom, Set.mem_ofPred_eq, List.mem_append, or_and_right, exists_or]

theorem mem_dom_singleton {p : Patch α β} {a : α} : a ∈ dom [p] ↔ (p a).isSome := by
  simp [dom]

/-- Outside its domain a log changes nothing. -/
theorem undo_of_notMem {log : List (Patch α β)} {mem : α → β} {a : α} (h : a ∉ dom log) :
    undo log mem a = mem a := by
  induction log with
  | nil => rfl
  | cons p log ih =>
    rw [← List.singleton_append, mem_dom_append, mem_dom_singleton] at h
    have hp : p a = none := by simpa using fun hs => h (.inl hs)
    simp [Patch.restore, hp, ih fun hd => h (.inr hd)]

/-- The result depends on the memory outside the log's domain only. -/
theorem undo_congr {log : List (Patch α β)} {m m' : α → β} {a : α}
    (h : a ∉ dom log → m a = m' a) : undo log m a = undo log m' a := by
  induction log with
  | nil => exact h (by simp)
  | cons p log ih =>
    cases hp : p a with
    | some v => simp [Patch.restore, hp]
    | none =>
      simp only [undo_cons, Patch.restore, hp, Option.getD_none]
      refine ih fun hd => h ?_
      rw [← List.singleton_append, mem_dom_append, mem_dom_singleton]
      simpa [hp] using hd

/-- Logs with disjoint domains do not interfere: at a location of the second log the first
one has no effect. -/
theorem undo_append_of_notMem {log log' : List (Patch α β)} {m : α → β} {a : α}
    (h : a ∉ dom log) : undo (log ++ log') m a = undo log' m a := by
  rw [undo_append, undo_of_notMem h]

theorem mem_dom_flatMap {γ : Type} {f : γ → List (Patch α β)} {l : List γ} {a : α} :
    a ∈ dom (l.flatMap f) ↔ ∃ i ∈ l, a ∈ dom (f i) := by
  simp only [dom, Set.mem_ofPred_eq, List.mem_flatMap]
  exact ⟨fun ⟨p, ⟨i, hi, hp⟩, ha⟩ => ⟨i, hi, p, hp, ha⟩,
    fun ⟨i, hi, p, hp, ha⟩ => ⟨p, ⟨i, hi, hp⟩, ha⟩⟩

/-- Of several logs only the one that holds a location matters there. -/
theorem undo_flatMap {γ : Type} {f : γ → List (Patch α β)} {l : List γ} (hl : l.Nodup) {i : γ}
    (hi : i ∈ l) {m : α → β} {a : α} (h : ∀ j ∈ l, j ≠ i → a ∉ dom (f j)) :
    undo (l.flatMap f) m a = undo (f i) m a := by
  induction l with
  | nil => cases hi
  | cons j l ih =>
    obtain ⟨hj, hl⟩ := List.nodup_cons.1 hl
    rw [List.flatMap_cons]
    rcases List.mem_cons.1 hi with rfl | hi
    · rw [undo_append]
      refine undo_congr fun _ => undo_of_notMem fun hd => ?_
      obtain ⟨k, hk, hka⟩ := mem_dom_flatMap.1 hd
      exact h k (List.mem_cons_of_mem _ hk) (fun he => hj (he ▸ hk)) hka
    · rw [undo_append_of_notMem (h j List.mem_cons_self fun he => hj (he ▸ hi))]
      exact ih hl hi fun k hk => h k (List.mem_cons_of_mem _ hk)

/-- The logs share no location. -/
def Apart (log log' : List (Patch α β)) : Prop := ∀ a ∈ dom log, a ∉ dom log'

/-- At a location of one of several logs the others have no effect. -/
theorem undo_flatten_of_mem {logs : List (List (Patch α β))} {log : List (Patch α β)}
    (h : logs.Pairwise Apart) (hl : log ∈ logs) {m : α → β} {a : α} (ha : a ∈ dom log) : undo logs.flatten m a = undo log m a := by
  induction logs with
  | nil => cases hl
  | cons l logs ih =>
    obtain ⟨hd, h⟩ := List.pairwise_cons.1 h
    rw [List.flatten_cons]
    rcases List.mem_cons.1 hl with rfl | hl
    · rw [undo_append]
      exact undo_congr fun hn => absurd ha hn
    · rw [undo_append_of_notMem fun hn => hd log hl a hn ha]
      exact ih h hl

/-- Once all of them are undone, undoing one again changes nothing. -/
theorem undo_again {logs : List (List (Patch α β))} {log : List (Patch α β)}
    (h : logs.Pairwise Apart) (hl : log ∈ logs) (m : α → β) :
    undo log (undo logs.flatten m) = undo logs.flatten m := by
  funext a
  by_cases ha : a ∈ dom log
  · rw [undo_flatten_of_mem h hl ha]
    exact undo_congr fun hn => absurd ha hn
  · exact undo_of_notMem ha

theorem restores_nil (S : Set α) (mem : α → β) : Restores S [] mem mem := fun _ _ => rfl

/-- Logging values that are current keeps the log restoring. -/
theorem Restores.log {S : Set α} {log : List (Patch α β)} {old mem : α → β}
    (h : Restores S log old mem) {p : Patch α β} (hp : ∀ a v, p a = some v → v = mem a) :
    Restores S (log ++ [p]) old mem := by
  intro a ha
  rw [undo_append, ← h a ha]
  refine undo_congr fun _ => ?_
  cases hpa : p a with
  | none => simp [Patch.restore, hpa]
  | some v => simp [Patch.restore, hpa, hp a v hpa]

/-- Memory may change at logged locations, and outside the restored set. -/
theorem Restores.congr {S : Set α} {log : List (Patch α β)} {old m m' : α → β}
    (h : Restores S log old m) (hm : ∀ a ∈ S, a ∉ dom log → m' a = m a) :
    Restores S log old m' := by
  intro a ha
  rw [← h a ha]
  exact undo_congr (hm a ha)

end UndoLog
