import Mathlib.Algebra.Order.Ring.Int
import Mathlib.Algebra.Order.Ring.Nat
import Mathlib.Data.Set.Card
import Mathlib.Logic.Function.Basic
import Mathlib.Order.CompletePartialOrder

/-!
# Counting the arguments of a partial function with a given value

When one argument of a partial function gets another value, the number of arguments with a value
changes by what that argument gives and takes (`ncard_fiber_update`).
-/

namespace Fibers

variable {α β : Type*} {f : α → Option β} {a : α} {b : β} {v : Option β}

/-- The arguments with a value. -/
def dom (f : α → Option β) : Set α := {x | f x ≠ none}

/-- The arguments whose value is `b`. -/
def fiber (f : α → Option β) (b : β) : Set α := {x | f x = some b}

theorem fiber_subset_dom : fiber f b ⊆ dom f := by
  intro x hx hnone
  rw [fiber, Set.mem_ofPred_eq, hnone] at hx
  cases hx

theorem finite_fiber (h : (dom f).Finite) (b : β) : (fiber f b).Finite :=
  h.subset fiber_subset_dom

theorem ncard_fiber_eq_zero (h : ∀ x, f x ≠ some b) : (fiber f b).ncard = 0 := by
  rw [Set.eq_empty_of_forall_notMem (s := fiber f b) h, Set.ncard_empty]

theorem ncard_split [DecidableEq (Option β)] (h : (dom f).Finite) (a : α) (b : β) :
    (fiber f b).ncard = (fiber f b \ {a}).ncard + if f a = some b then 1 else 0 := by
  by_cases ha : f a = some b
  · have hmem : a ∈ fiber f b := ha
    rw [if_pos ha, Set.ncard_sdiff_singleton_add_one hmem (finite_fiber h b)]
  · have hmem : a ∉ fiber f b := ha
    rw [if_neg ha, Set.sdiff_singleton_eq_self hmem, Nat.add_zero]

variable [DecidableEq α]

theorem dom_update_finite (h : (dom f).Finite) : (dom (Function.update f a v)).Finite := by
  refine (h.insert a).subset fun x hx => ?_
  by_cases hxa : x = a
  · exact .inl hxa
  · rw [dom, Set.mem_ofPred_eq, Function.update_of_ne hxa] at hx
    exact .inr hx

theorem ncard_fiber_update [DecidableEq β] (h : (dom f).Finite) (b : β) :
    (fiber (Function.update f a v) b).ncard + (if f a = some b then 1 else 0) =
      (fiber f b).ncard + if v = some b then 1 else 0 := by
  have hrest : fiber (Function.update f a v) b \ {a} = fiber f b \ {a} := by
    ext x
    simp only [Set.mem_sdiff, Set.mem_singleton_iff, fiber, Set.mem_ofPred_eq]
    refine and_congr_left fun hxa => ?_
    rw [Function.update_of_ne hxa]
  rw [ncard_split h a b, ncard_split (dom_update_finite h) a b, hrest, Function.update_self]
  omega

end Fibers
