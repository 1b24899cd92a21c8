import Mathlib.Algebra.Order.Ring.Int
import Mathlib.Algebra.Order.Ring.Nat
import Mathlib.Data.List.Nodup
import Mathlib.Data.List.Perm.Basic
import Mathlib.Logic.Function.Basic

/-!
# Association lists as finite maps

`Maps l m` says that the list `l` binds each key at most once and that its bindings are the map
`m`. The order of the list does not matter, and adding or dropping a binding updates the map.
-/

namespace Assoc

variable {α β : Type*} {l l' : List (α × β)} {m : α → Option β} {a : α} {b c : β}

structure Maps (l : List (α × β)) (m : α → Option β) : Prop where
  nodup : (l.map Prod.fst).Nodup
  mem_iff : ∀ a b, (a, b) ∈ l ↔ m a = some b

theorem maps_nil : Maps ([] : List (α × β)) fun _ => none :=
  ⟨List.nodup_nil, by simp⟩

theorem Maps.perm (h : Maps l m) (hl : l'.Perm l) : Maps l' m :=
  ⟨(hl.map Prod.fst).nodup_iff.mpr h.nodup, fun a b => hl.mem_iff.trans (h.mem_iff a b)⟩

theorem Maps.eq_none (h : Maps l m) (ha : ∀ b, (a, b) ∉ l) : m a = none := by
  rw [Option.eq_none_iff_forall_ne_some]
  exact fun b hb => ha b ((h.mem_iff a b).mpr hb)

theorem Maps.head (h : Maps ((a, b) :: l) m) : m a = some b :=
  (h.mem_iff a b).mp (List.mem_cons_self ..)

variable [DecidableEq α]

/-- A new key is bound. -/
theorem Maps.cons (h : Maps l m) (ha : m a = none) :
    Maps ((a, b) :: l) (Function.update m a (some b)) := by
  have hnot : a ∉ l.map Prod.fst := by
    rintro hmem
    obtain ⟨⟨x, y⟩, hxy, rfl⟩ := List.mem_map.mp hmem
    have := (h.mem_iff x y).mp hxy
    rw [ha] at this
    cases this
  refine ⟨List.nodup_cons.mpr ⟨hnot, h.nodup⟩, fun x y => ?_⟩
  rw [List.mem_cons, h.mem_iff, Function.update_apply]
  by_cases hx : x = a
  · subst hx
    simp [ha, eq_comm]
  · simp [hx]

/-- A binding is dropped. -/
theorem Maps.of_cons (h : Maps ((a, b) :: l) m) : Maps l (Function.update m a none) := by
  have hnodup := List.nodup_cons.mp h.nodup
  refine ⟨hnodup.2, fun x y => ?_⟩
  rw [Function.update_apply]
  by_cases hx : x = a
  · subst hx
    have hno : (x, y) ∉ l := fun hmem => hnodup.1 (List.mem_map.mpr ⟨(x, y), hmem, rfl⟩)
    simpa using hno
  · rw [if_neg hx, ← h.mem_iff, List.mem_cons]
    simp [hx]

/-- A binding is replaced. -/
theorem Maps.set (h : Maps ((a, b) :: l) m) :
    Maps ((a, c) :: l) (Function.update m a (some c)) := by
  have := h.of_cons.cons (b := c) (Function.update_self ..)
  rwa [Function.update_idem] at this

end Assoc
