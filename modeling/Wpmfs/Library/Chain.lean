import Mathlib.Algebra.Order.Ring.Int
import Mathlib.Algebra.Order.Ring.Nat
import Mathlib.Data.List.Nodup
import Mathlib.Logic.Function.Basic

/-!
# Singly linked chains

A chain leads from a head through `next` to the terminator `z`. Since `next` is a function, the
nodes of a chain are determined by its head, and none of them is met twice.
-/

/-- The chain from `a` visits the nodes of the list in order and then ends. -/
def Linked {α : Type} (next : α → α) (z : α) : α → List α → Prop
  | a, [] => a = z
  | a, i :: l => a = i ∧ i ≠ z ∧ Linked next z (next i) l

/-- Follow the chain from `a` to its end, through at most `n` nodes. -/
def followLinks {α : Type} [DecidableEq α] (next : α → α) (z : α) : ℕ → α → Option (List α)
  | 0, a => if a = z then some [] else none
  | n + 1, a => if a = z then some [] else (followLinks next z n (next a)).map (a :: ·)

namespace Linked

variable {α : Type} {next next' : α → α} {z a i p v : α} {l l' pre : List α}

@[simp] theorem nil_iff : Linked next z a [] ↔ a = z := Iff.rfl

@[simp] theorem cons_iff : Linked next z a (i :: l) ↔ a = i ∧ i ≠ z ∧ Linked next z (next i) l :=
  Iff.rfl

theorem congr (h : Linked next z a l) (hsame : ∀ i ∈ l, next' i = next i) : Linked next' z a l := by
  induction l generalizing a with
  | nil => exact h
  | cons i l ih =>
    obtain ⟨rfl, hne, hl⟩ := h
    refine ⟨rfl, hne, ?_⟩
    rw [hsame a (List.mem_cons_self ..)]
    exact ih hl fun j hj => hsame j (List.mem_cons_of_mem _ hj)

/-- The nodes are determined by the head. -/
theorem unique (h : Linked next z a l) (h' : Linked next z a l') : l = l' := by
  induction l generalizing a l' with
  | nil =>
    cases l' with
    | nil => rfl
    | cons i l' => exact absurd (h'.1.symm.trans h) h'.2.1
  | cons i l ih =>
    cases l' with
    | nil => exact absurd (h.1.symm.trans h') h.2.1
    | cons j l' =>
      obtain ⟨rfl, -, hl⟩ := h
      obtain ⟨rfl, -, hl'⟩ := h'
      rw [ih hl hl']

theorem of_append (h : Linked next z a (pre ++ i :: l)) : Linked next z i (i :: l) := by
  induction pre generalizing a with
  | nil =>
    obtain ⟨rfl, hl⟩ := h
    exact ⟨rfl, hl⟩
  | cons j pre ih => exact ih h.2.2

theorem nodup (h : Linked next z a l) : l.Nodup := by
  induction l generalizing a with
  | nil => exact List.nodup_nil
  | cons i l ih =>
    refine List.nodup_cons.mpr ⟨fun hi => ?_, ih h.2.2⟩
    obtain ⟨pre, post, rfl⟩ := List.append_of_mem hi
    obtain ⟨rfl, hne, hl⟩ := h
    -- the chain from the second visit is the chain from the first one
    have hfirst : Linked next z a (a :: (pre ++ a :: post)) := ⟨rfl, hne, hl⟩
    have hlength := congrArg List.length (unique hl.of_append hfirst)
    simp at hlength
    omega

section Update

variable [DecidableEq α]

theorem update (h : Linked next z a l) (hi : i ∉ l) : Linked (Function.update next i v) z a l :=
  h.congr fun _ hj => Function.update_of_ne (ne_of_mem_of_not_mem hj hi) ..

/-- A new node in front. -/
theorem insert (h : Linked next z a l) (hi : i ∉ l) (hne : i ≠ z) :
    Linked (Function.update next i a) z i (i :: l) := by
  refine ⟨rfl, hne, ?_⟩
  rw [Function.update_self]
  exact h.update hi

/-- The node behind `p` is taken out. -/
theorem unlink (h : Linked next z a (pre ++ p :: i :: l)) :
    Linked (Function.update next p (next i)) z a (pre ++ p :: l) := by
  induction pre generalizing a with
  | nil =>
    have hnodup := h.nodup
    obtain ⟨rfl, hne, -, -, hl⟩ := h
    refine ⟨rfl, hne, ?_⟩
    rw [Function.update_self]
    exact hl.update fun ha => (List.nodup_cons.mp hnodup).1 (List.mem_cons_of_mem _ ha)
  | cons j pre ih =>
    have hne : j ≠ p := by
      rintro rfl
      exact (List.nodup_cons.mp h.nodup).1 (by simp)
    obtain ⟨rfl, hz, hl⟩ := h
    refine ⟨rfl, hz, ?_⟩
    rw [Function.update_of_ne hne]
    exact ih hl

theorem follow (h : Linked next z a l) : followLinks next z l.length a = some l := by
  induction l generalizing a with
  | nil => exact if_pos h
  | cons i l ih =>
    obtain ⟨rfl, hne, hl⟩ := h
    rw [List.length_cons, followLinks, if_neg hne, ih hl]
    rfl

/-- What the walk returns is the chain. -/
theorem of_follow {n : ℕ} (h : followLinks next z n a = some l) : Linked next z a l := by
  induction n generalizing a l with
  | zero =>
    rw [followLinks] at h
    split at h
    · cases h
      assumption
    · cases h
  | succ n ih =>
    rw [followLinks] at h
    split at h
    · cases h
      assumption
    · obtain ⟨l', hl', rfl⟩ := Option.map_eq_some_iff.mp h
      exact ⟨rfl, ‹_›, ih hl'⟩

end Update

end Linked
