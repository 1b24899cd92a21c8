import Mathlib.Algebra.Order.Ring.Int
import Mathlib.Algebra.Order.Ring.Nat
import Mathlib.Data.Nat.Basic
import Mathlib.Data.Set.Basic
import Mathlib.Order.CompletePartialOrder

/-!
# Programs over persistent memory

A program issues stores one at a time; each store may depend on what memory holds when it is
issued. Stores become persistent in the order they are issued, so a crash leaves the state
after some number of stores (`Prog.CrashState`). `Prog.exec` is the uninterrupted run.

`Prog.Safe` is a rely/guarantee judgement. Between any two actions of the program the
environment may change the state by `R`, every store of the program must meet `G`, and no
fault is reached. With equality as the rely it is a crash Hoare logic for one program run
alone; with "agrees on the locations I own" it speaks of one thread among others.
-/

namespace Persist

/-- How one store changes the persistent state. -/
class StoreModel (σ : Type) (ω : outParam Type) where
  /-- The state after a store. -/
  apply : σ → ω → σ

export StoreModel (apply)

/-- A program that reads a state `σ`, issues stores `ω`, and ends in a value or a fault. -/
inductive Prog (σ ω ε α : Type) where
  | ret (a : α)
  | fault (e : ε)
  | act (store : σ → ω) (k : Prog σ ω ε α)
  | get (k : σ → Prog σ ω ε α)

namespace Prog

variable {σ ω ε α β γ : Type}

/-- Sequencing; a fault skips what follows. -/
def bind : Prog σ ω ε α → (α → Prog σ ω ε β) → Prog σ ω ε β
  | .ret a, f => f a
  | .fault e, _ => .fault e
  | .act g k, f => .act g (k.bind f)
  | .get k, f => .get fun s => (k s).bind f

instance : Monad (Prog σ ω ε) where
  pure := ret
  bind := bind

@[simp] theorem pure_eq (a : α) : (pure a : Prog σ ω ε α) = ret a := rfl
@[simp] theorem ret_bind (a : α) (f : α → Prog σ ω ε β) : ret a >>= f = f a := rfl
@[simp] theorem fault_bind (e : ε) (f : α → Prog σ ω ε β) : fault e >>= f = fault e := rfl
@[simp] theorem act_bind (g : σ → ω) (k : Prog σ ω ε α) (f : α → Prog σ ω ε β) :
    act g k >>= f = act g (k >>= f) := rfl
@[simp] theorem get_bind (k : σ → Prog σ ω ε α) (f : α → Prog σ ω ε β) :
    get k >>= f = get fun s => k s >>= f := rfl

/-- Issue one store, computed from the state it is issued in. -/
def store (f : σ → ω) : Prog σ ω ε Unit := act f (ret ())

/-- Read from the state. -/
def read (f : σ → α) : Prog σ ω ε α := get fun s => ret (f s)

/-- `if (c) p`. -/
def when (c : Prop) [Decidable c] (p : Prog σ ω ε Unit) : Prog σ ω ε Unit :=
  if c then p else ret ()

/-- `for (i = 0; i < n; i++) body i`, carrying a value. -/
def forRange (body : Nat → β → Prog σ ω ε β) : Nat → β → Prog σ ω ε β
  | 0, b => ret b
  | n + 1, b => forRange body n b >>= body n

section Semantics

variable [StoreModel σ ω]

/-- The uninterrupted run. -/
def exec : Prog σ ω ε α → σ → σ × Except ε α
  | .ret a, s => (s, .ok a)
  | .fault e, s => (s, .error e)
  | .act g k, s => k.exec (apply s (g s))
  | .get k, s => (k s).exec s

/-- One action of a program that runs among others, and what remains of the program. -/
def next : Prog σ ω ε α → σ → σ × Prog σ ω ε α
  | .ret a, s => (s, .ret a)
  | .fault e, s => (s, .fault e)
  | .act g k, s => (apply s (g s), k)
  | .get k, s => (s, k s)

/-- The states a cut-off of the run from `s` can leave: after none, some or all stores. -/
def CrashState : Prog σ ω ε α → σ → σ → Prop
  | .ret _, s, c => c = s
  | .fault _, s, c => c = s
  | .act g k, s, c => c = s ∨ k.CrashState (apply s (g s)) c
  | .get k, s, c => (k s).CrashState s c

theorem crashState_start (p : Prog σ ω ε α) (s : σ) : p.CrashState s s := by
  induction p generalizing s with
  | ret a => rfl
  | fault e => rfl
  | act g k _ => exact .inl rfl
  | get k ih => exact ih s s

theorem exec_bind (p : Prog σ ω ε α) (f : α → Prog σ ω ε β) (s : σ) :
    (p >>= f).exec s = match p.exec s with
      | (t, .ok a) => (f a).exec t
      | (t, .error e) => (t, .error e) := by
  induction p generalizing s with
  | ret a => rfl
  | fault e => rfl
  | act g k ih => exact ih _
  | get k ih => exact ih s s

/-- A cut-off of a sequence cuts off its first part, or its second part after the first. -/
theorem crashState_bind (p : Prog σ ω ε α) (f : α → Prog σ ω ε β) (s c : σ) :
    (p >>= f).CrashState s c ↔
      p.CrashState s c ∨ ∃ t a, p.exec s = (t, .ok a) ∧ (f a).CrashState t c := by
  induction p generalizing s with
  | ret a =>
    constructor
    · intro h
      exact .inr ⟨s, a, rfl, h⟩
    · rintro (rfl | ⟨t, b, he, h⟩)
      · exact crashState_start _ _
      · cases he
        exact h
  | fault e => simp [CrashState, exec]
  | act g k ih =>
    rw [act_bind]
    simp only [CrashState, exec, ih, or_assoc]
  | get k ih => exact ih s s

/-- Rely/guarantee safety: the environment moves by `R` between actions, every store meets
`G`, no fault is reached, and the result meets `Q`. -/
def Safe (R G : σ → σ → Prop) (Q : α → σ → Prop) : Prog σ ω ε α → σ → Prop
  | .ret a, s => ∀ t, R s t → Q a t
  | .fault _, _ => False
  | .act g k, s => ∀ t, R s t → G t (apply t (g t)) ∧ k.Safe R G Q (apply t (g t))
  | .get k, s => ∀ t, R s t → (k t).Safe R G Q t

variable {R G : σ → σ → Prop} {Q : α → σ → Prop}

/-- Safety survives a move of the environment. -/
theorem Safe.env (hR : ∀ {a b c}, R a b → R b c → R a c) {p : Prog σ ω ε α} {s t : σ}
    (h : p.Safe R G Q s) (hst : R s t) : p.Safe R G Q t := by
  cases p with
  | ret a => exact fun u hu => h u (hR hst hu)
  | fault e => exact h
  | act g k => exact fun u hu => h u (hR hst hu)
  | get k => exact fun u hu => h u (hR hst hu)

theorem Safe.mono {R' G' : σ → σ → Prop} {Q' : α → σ → Prop}
    (hR : ∀ {a b}, R' a b → R a b) (hG : ∀ {a b}, G a b → G' a b) (hQ : ∀ {a s}, Q a s → Q' a s)
    {p : Prog σ ω ε α} {s : σ} (h : p.Safe R G Q s) : p.Safe R' G' Q' s := by
  induction p generalizing s with
  | ret a => exact fun t ht => hQ (h t (hR ht))
  | fault e => exact h
  | act g k ih =>
    intro t ht
    obtain ⟨hg, hk⟩ := h t (hR ht)
    exact ⟨hG hg, ih hk⟩
  | get k ih => exact fun t ht => ih t (h t (hR ht))

theorem Safe.bind {Q' : β → σ → Prop} {p : Prog σ ω ε α} {f : α → Prog σ ω ε β} {s : σ}
    (hr : ∀ a, R a a) (h : p.Safe R G Q s)
    (hf : ∀ a t, Q a t → (f a).Safe R G Q' t) : (p >>= f).Safe R G Q' s := by
  induction p generalizing s with
  | ret a => exact hf a s (h s (hr s))
  | fault e => exact h.elim
  | act g k ih =>
    intro t ht
    obtain ⟨hg, hk⟩ := h t ht
    exact ⟨hg, ih hk⟩
  | get k ih => exact fun t ht => ih t (h t ht)

/-- An invariant that the environment and the guaranteed stores keep holds after every store. -/
theorem Safe.invariant {I : σ → Prop} (hR : ∀ {a b}, R a b → I a → I b)
    (hG : ∀ {a b}, G a b → I a → I b) {p : Prog σ ω ε α} {s : σ} (h : p.Safe R G Q s)
    (hs : I s) : p.Safe R (fun a b => G a b ∧ I b) (fun a t => Q a t ∧ I t) s := by
  induction p generalizing s with
  | ret a => exact fun t ht => ⟨h t ht, hR ht hs⟩
  | fault e => exact h
  | act g k ih =>
    intro t ht
    obtain ⟨hg, hk⟩ := h t ht
    exact ⟨⟨hg, hG hg (hR ht hs)⟩, ih hk (hG hg (hR ht hs))⟩
  | get k ih => exact fun t ht => ih t (h t ht) (hR ht hs)

theorem Safe.when {Q : Unit → σ → Prop} {c : Prop} [Decidable c] {p : Prog σ ω ε Unit} {s : σ}
    (hp : c → p.Safe R G Q s) (hn : ¬c → ∀ t, R s t → Q () t) : (Prog.when c p).Safe R G Q s := by
  unfold Prog.when
  split
  · exact hp ‹_›
  · exact hn ‹_›

/-- After one action what remains is safe, and a store met the guarantee. -/
theorem Safe.next {p : Prog σ ω ε α} {s : σ} (hr : ∀ a, R a a) (h : p.Safe R G Q s) :
    (p.next s).2.Safe R G Q (p.next s).1 ∧ ((p.next s).1 = s ∨ G s (p.next s).1) := by
  cases p with
  | ret a => exact ⟨h, .inl rfl⟩
  | fault e => exact h.elim
  | act g k =>
    obtain ⟨hg, hk⟩ := h s (hr s)
    exact ⟨hk, .inr hg⟩
  | get k => exact ⟨h s (hr s), .inl rfl⟩

/-- The loop rule: `J i` holds before iteration `i` and survives the environment. -/
theorem Safe.forRange {body : Nat → β → Prog σ ω ε β} {n : Nat} {b : β} {s : σ}
    (J : Nat → β → σ → Prop) (hr : ∀ a, R a a)
    (hJ : ∀ i b s t, R s t → J i b s → J i b t) (h : J 0 b s)
    (hbody : ∀ i < n, ∀ b s, J i b s → (body i b).Safe R G (J (i + 1)) s) :
    (forRange body n b).Safe R G (J n) s := by
  induction n with
  | zero => exact fun t ht => hJ _ _ _ _ ht h
  | succ n ih =>
    exact Safe.bind hr (ih fun i hi => hbody i (by omega)) (hbody n (by omega))

/-- A safe program run alone ends without a fault. -/
theorem Safe.exec {p : Prog σ ω ε α} {s : σ} (h : p.Safe Eq G Q s) :
    ∃ t a, p.exec s = (t, .ok a) ∧ Q a t := by
  induction p generalizing s with
  | ret a => exact ⟨s, a, rfl, h s rfl⟩
  | fault e => exact h.elim
  | act g k ih => exact ih (h s rfl).2
  | get k ih => exact ih s (h s rfl)

/-- Every cut-off of a safe program run alone meets what its stores guarantee. -/
theorem Safe.crash {I : σ → Prop} {p : Prog σ ω ε α} {s c : σ}
    (h : p.Safe Eq (fun _ t => I t) Q s) (hs : I s) (hc : p.CrashState s c) : I c := by
  induction p generalizing s with
  | ret a => exact hc ▸ hs
  | fault e => exact h.elim
  | act g k ih =>
    obtain rfl | hc := hc
    · exact hs
    · obtain ⟨hI, hk⟩ := h s rfl
      exact ih hk hI hc
  | get k ih => exact ih s (h s rfl) hs hc

end Semantics

section Always

/-- Every store meets `G` in every state, and every way the program can end meets `Q`; faults are
ends too. Nothing is asked of the state the program starts in. -/
def Always [StoreModel σ ω] (G : σ → σ → Prop) (Q : Except ε α → Prop) : Prog σ ω ε α → Prop
  | .ret a => Q (.ok a)
  | .fault e => Q (.error e)
  | .act g k => (∀ s, G s (apply s (g s))) ∧ k.Always G Q
  | .get k => ∀ s, (k s).Always G Q

variable [StoreModel σ ω] {G : σ → σ → Prop} {Q : Except ε α → Prop}

theorem Always.mono {Q' : Except ε α → Prop} {p : Prog σ ω ε α} (h : p.Always G Q)
    (hQ : ∀ r, Q r → Q' r) : p.Always G Q' := by
  induction p with
  | ret a => exact hQ _ h
  | fault e => exact hQ _ h
  | act g k ih => exact ⟨h.1, ih h.2⟩
  | get k ih => exact fun s => ih s (h s)

theorem Always.bind {Q' : Except ε β → Prop} {p : Prog σ ω ε α} {f : α → Prog σ ω ε β}
    (h : p.Always G Q) (hok : ∀ a, Q (.ok a) → (f a).Always G Q')
    (herror : ∀ e, Q (.error e) → Q' (.error e)) : (p >>= f).Always G Q' := by
  induction p with
  | ret a => exact hok a h
  | fault e => exact herror e h
  | act g k ih => exact ⟨h.1, ih h.2⟩
  | get k ih => exact fun s => ih s (h s)

theorem Always.forRange {Q : Except ε Unit → Prop} {body : Nat → Unit → Prog σ ω ε Unit} {n : Nat}
    (hok : Q (.ok ())) (hbody : ∀ i, (body i ()).Always G Q) :
    (forRange body n ()).Always G Q := by
  induction n with
  | zero => exact hok
  | succ n ih => exact ih.bind (fun _ _ => hbody n) fun _ he => he

theorem Always.relax {G' : σ → σ → Prop} {p : Prog σ ω ε α} (h : p.Always G Q)
    (hG : ∀ s t, G s t → G' s t) : p.Always G' Q := by
  induction p with
  | ret a => exact h
  | fault e => exact h
  | act g k ih => exact ⟨fun s => hG _ _ (h.1 s), ih h.2⟩
  | get k ih => exact fun s => ih s (h s)

/-- One action of the program. -/
theorem Always.next {p : Prog σ ω ε α} (hr : ∀ s, G s s) (h : p.Always G Q) (s : σ) :
    G s (p.next s).1 ∧ (p.next s).2.Always G Q := by
  cases p with
  | ret a => exact ⟨hr s, h⟩
  | fault e => exact ⟨hr s, h⟩
  | act g k => exact ⟨h.1 s, h.2⟩
  | get k => exact ⟨hr s, h s⟩

theorem Always.exec {p : Prog σ ω ε α} (hr : ∀ s, G s s) (ht : ∀ {s t u}, G s t → G t u → G s u)
    (h : p.Always G Q) (s : σ) : G s (p.exec s).1 ∧ Q (p.exec s).2 := by
  induction p generalizing s with
  | ret a => exact ⟨hr s, h⟩
  | fault e => exact ⟨hr s, h⟩
  | act g k ih =>
    obtain ⟨hG, hQ⟩ := ih h.2 (apply s (g s))
    exact ⟨ht (h.1 s) hG, hQ⟩
  | get k ih => exact ih s (h s) s

end Always

end Prog
end Persist
