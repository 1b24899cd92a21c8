import Mathlib.Algebra.Order.Ring.Int
import Mathlib.Algebra.Order.Ring.Nat
import Mathlib.Data.Nat.Basic

/-!
# Radix trees laid out in pages

A tree is given by its root and by the page behind each slot of a page. The number of a position on
a level, written with a digit for each level above it, is the path from the root to it.

In a tree whose pages are apart every page has one position. Such a tree may be moved along a map of
its pages, for instance by exchanging one of them for a copy.
-/

namespace Radix

variable {P : Type} {child child' : P → ℕ → Option P} {fan : ℕ}

/-- The page at a position of the level `d` below the page `p`. The first digit comes first. -/
def find (child : P → ℕ → Option P) (fan : ℕ) : (d : ℕ) → (p : P) → (k : ℕ) → Option P
  | 0, p, _ => some p
  | d + 1, p, k => (child p (k / fan ^ d)).bind fun c => find child fan d c (k % fan ^ d)

/-- The page is on a level above `h`. -/
def Inner (child : P → ℕ → Option P) (fan h : ℕ) (root x : P) : Prop :=
  ∃ d < h, ∃ k < fan ^ d, find child fan d root k = some x

/-- The page is in the tree of height `h`. -/
def Mem (child : P → ℕ → Option P) (fan h : ℕ) (root x : P) : Prop :=
  ∃ d ≤ h, ∃ k < fan ^ d, find child fan d root k = some x

/-- No page of the tree of height `h` has two positions. -/
def Apart (child : P → ℕ → Option P) (fan h : ℕ) (root : P) : Prop :=
  ∀ d e j k x, d ≤ h → e ≤ h → j < fan ^ d → k < fan ^ e →
    find child fan d root j = some x → find child fan e root k = some x → d = e ∧ j = k

variable {h d e i j k : ℕ} {root p q b x y : P}

theorem div_lt_of_lt_pow (hk : k < fan ^ (d + 1)) : k / fan < fan ^ d :=
  Nat.div_lt_of_lt_mul (by rwa [← pow_succ'])

theorem pos_of_lt_pow (hk : k < fan ^ (d + 1)) : 0 < fan := by
  rcases Nat.eq_zero_or_pos fan with rfl | hpos
  · simp at hk
  · exact hpos

/-- The last digit is that of the last step. -/
theorem find_succ (hk : k < fan ^ (d + 1)) : find child fan (d + 1) p k =
    (find child fan d p (k / fan)).bind fun x => child x (k % fan) := by
  induction d generalizing p k with
  | zero =>
    rw [Nat.zero_add, pow_one] at hk
    simp [find, Nat.mod_eq_of_lt hk]
  | succ d ih =>
    have hpos := pos_of_lt_pow hk
    have hmod : k % fan ^ (d + 1) < fan ^ (d + 1) := Nat.mod_lt _ (Nat.pow_pos hpos)
    have hfirst : k / fan / fan ^ d = k / fan ^ (d + 1) := by
      rw [Nat.div_div_eq_div_mul, pow_succ']
    have hrest : k % fan ^ (d + 1) / fan = k / fan % fan ^ d := by
      rw [pow_succ', Nat.mod_mul_right_div_self]
    have hlast : k % fan ^ (d + 1) % fan = k % fan :=
      Nat.mod_mod_of_dvd k (dvd_pow_self fan (Nat.succ_ne_zero d))
    rw [find, find, hfirst]
    cases child p (k / fan ^ (d + 1)) with
    | none => rfl
    | some c => simp only [Option.bind_some, ih hmod, hrest, hlast]

/-- One step further down. -/
theorem find_step (hi : i < fan) (hk : k < fan ^ d) (hx : find child fan d root k = some x) :
    k * fan + i < fan ^ (d + 1) ∧
      find child fan (d + 1) root (k * fan + i) = child x i := by
  have hlt : k * fan + i < fan ^ (d + 1) := by
    rw [pow_succ]
    calc k * fan + i < (k + 1) * fan := by rw [Nat.succ_mul]; omega
      _ ≤ fan ^ d * fan := Nat.mul_le_mul_right _ hk
  have hdiv : (k * fan + i) / fan = k := by
    rw [Nat.mul_comm, Nat.mul_add_div (by omega), Nat.div_eq_of_lt hi, Nat.add_zero]
  have hmod : (k * fan + i) % fan = i := by
    rw [Nat.mul_comm, Nat.mul_add_mod, Nat.mod_eq_of_lt hi]
  exact ⟨hlt, by rw [find_succ hlt, hdiv, hmod, hx, Option.bind_some]⟩

/-! ## The digits of a position -/

theorem digit_first : k % fan ^ (e + 1) / fan ^ e = k / fan ^ e % fan := by
  rw [pow_succ', Nat.mod_mul_left_div_self]

theorem digits_rest : k % fan ^ (e + 1) % fan ^ e = k % fan ^ e :=
  Nat.mod_mod_of_dvd k (pow_dvd_pow fan (Nat.le_succ e))

theorem div_pow_lt (hk : k < fan ^ (d + e)) : k / fan ^ e < fan ^ d :=
  Nat.div_lt_of_lt_mul (by rwa [← pow_add, Nat.add_comm])

/-- On the way to a position of the level `d + (e + 1)`, the step from the level `d` on. -/
theorem find_descend (hk : k < fan ^ (d + (e + 1)))
    (hx : find child fan d root (k / fan ^ (e + 1)) = some x) :
    find child fan (d + 1) root (k / fan ^ e) = child x (k / fan ^ e % fan) := by
  have hlt : k / fan ^ e < fan ^ (d + 1) := div_pow_lt (by rwa [Nat.add_assoc, Nat.add_comm 1])
  have hdiv : k / fan ^ e / fan = k / fan ^ (e + 1) := by
    rw [Nat.div_div_eq_div_mul, pow_succ]
  rw [find_succ hlt, hdiv, hx, Option.bind_some]

/-- Nothing is below a position that is empty. -/
theorem find_none (hk : k < fan ^ (d + e)) (hnone : find child fan d root (k / fan ^ e) = none) :
    find child fan (d + e) root k = none := by
  induction e generalizing k with
  | zero => simpa using hnone
  | succ e ih =>
    rw [← Nat.add_assoc] at hk ⊢
    rw [find_succ hk, ih (div_lt_of_lt_pow hk)]
    · rfl
    · rwa [Nat.div_div_eq_div_mul, ← pow_succ']

theorem Inner.mem (hx : Inner child fan h root x) : Mem child fan h root x := by
  obtain ⟨d, hd, k, hk, hx⟩ := hx
  exact ⟨d, hd.le, k, hk, hx⟩

theorem mem_root : Mem child fan h root root := ⟨0, Nat.zero_le _, 0, by simp, rfl⟩

theorem Inner.slot_mem (hx : Inner child fan h root x) (hi : i < fan) (hxi : child x i = some b) :
    Mem child fan h root b := by
  obtain ⟨d, hd, k, hk, hx⟩ := hx
  obtain ⟨hlt, hfind⟩ := find_step hi hk hx
  exact ⟨d + 1, hd, _, hlt, hfind.trans hxi⟩

/-- A page below the root is behind a slot. -/
theorem Mem.parent (hx : Mem child fan h root x) (hne : x ≠ root) :
    ∃ p i, Inner child fan h root p ∧ i < fan ∧ child p i = some x := by
  obtain ⟨d, hd, k, hk, hfind⟩ := hx
  cases d with
  | zero => exact absurd (Option.some.inj hfind).symm hne
  | succ d =>
    rw [find_succ hk] at hfind
    obtain ⟨p, hp, hslot⟩ := Option.bind_eq_some_iff.mp hfind
    have hpos := pos_of_lt_pow hk
    exact ⟨p, k % fan, ⟨d, hd, k / fan, div_lt_of_lt_pow hk, hp⟩, Nat.mod_lt _ hpos, hslot⟩

/-- A page is behind one slot only. -/
theorem Apart.slot_unique (hapart : Apart child fan h root) (hx : Inner child fan h root x)
    (hy : Inner child fan h root y) (hi : i < fan) (hj : j < fan) (hxi : child x i = some b)
    (hyj : child y j = some b) : x = y ∧ i = j := by
  obtain ⟨d, hd, k, hk, hx⟩ := hx
  obtain ⟨e, he, l, hl, hy⟩ := hy
  obtain ⟨hk', hx'⟩ := find_step hi hk hx
  obtain ⟨hl', hy'⟩ := find_step hj hl hy
  obtain ⟨hde, hkl⟩ := hapart (d + 1) (e + 1) _ _ b hd he hk' hl' (hx'.trans hxi) (hy'.trans hyj)
  obtain rfl : d = e := Nat.succ.inj hde
  have hdigits : k = l ∧ i = j := by
    have hdiv := congrArg (· / fan) hkl
    have hmod := congrArg (· % fan) hkl
    simp only [Nat.mul_comm _ fan, Nat.mul_add_mod, Nat.mod_eq_of_lt hi, Nat.mod_eq_of_lt hj] at hmod
    simp only [Nat.mul_comm _ fan, Nat.mul_add_div (Nat.zero_lt_of_lt hi), Nat.div_eq_of_lt hi,
      Nat.div_eq_of_lt hj, Nat.add_zero] at hdiv
    exact ⟨hdiv, hmod⟩
  obtain ⟨rfl, rfl⟩ := hdigits
  exact ⟨Option.some.inj (hx.symm.trans hy), rfl⟩

/-- A page is not behind a slot of its own, and the root is behind none. -/
theorem Apart.slot_ne (hapart : Apart child fan h root) (hx : Inner child fan h root x)
    (hi : i < fan) (hxi : child x i = some b) : b ≠ x ∧ b ≠ root := by
  obtain ⟨d, hd, k, hk, hx⟩ := hx
  obtain ⟨hk', hx'⟩ := find_step hi hk hx
  rw [hxi] at hx'
  constructor
  · rintro rfl
    have := (hapart _ _ _ _ _ hd hd.le hk' hk hx' hx).1
    omega
  · rintro rfl
    have := (hapart _ _ _ _ _ hd (Nat.zero_le h) hk' (show 0 < fan ^ 0 by simp) hx' rfl).1
    omega

/-- The pages of the last level are not above it. -/
theorem Apart.not_inner (hapart : Apart child fan h root) (hk : k < fan ^ h)
    (hx : find child fan h root k = some x) : ¬Inner child fan h root x := by
  rintro ⟨d, hd, j, hj, hx'⟩
  exact hd.ne (hapart d h j k x hd.le le_rfl hj hk hx' hx).1

/-! ## Moving a tree -/

/-- The slots of the pages above the level `h` are moved along `σ`. -/
def Moved (child child' : P → ℕ → Option P) (fan h : ℕ) (root : P) (σ : P → P) : Prop :=
  ∀ x i, Inner child fan h root x → i < fan → child' (σ x) i = (child x i).map σ

variable {σ : P → P}

theorem Moved.find (hσ : Moved child child' fan h root σ) (hd : d ≤ h) (hk : k < fan ^ d) :
    find child' fan d (σ root) k = (find child fan d root k).map σ := by
  induction d generalizing k with
  | zero => rfl
  | succ d ih =>
    have hlt := div_lt_of_lt_pow hk
    rw [find_succ hk, find_succ hk, ih (by omega) hlt]
    cases hx : Radix.find child fan d root (k / fan) with
    | none => rfl
    | some x => exact hσ x _ ⟨d, hd, _, hlt, hx⟩ (Nat.mod_lt _ (pos_of_lt_pow hk))

theorem Moved.mem_iff (hσ : Moved child child' fan h root σ) :
    Mem child' fan h (σ root) y ↔ ∃ x, Mem child fan h root x ∧ σ x = y := by
  constructor
  · rintro ⟨d, hd, k, hk, hy⟩
    rw [hσ.find hd hk] at hy
    obtain ⟨x, hx, rfl⟩ := Option.map_eq_some_iff.mp hy
    exact ⟨x, ⟨d, hd, k, hk, hx⟩, rfl⟩
  · rintro ⟨x, ⟨d, hd, k, hk, hx⟩, rfl⟩
    exact ⟨d, hd, k, hk, by rw [hσ.find hd hk, hx, Option.map_some]⟩

theorem Moved.inner_iff (hσ : Moved child child' fan h root σ) :
    Inner child' fan h (σ root) y ↔ ∃ x, Inner child fan h root x ∧ σ x = y := by
  constructor
  · rintro ⟨d, hd, k, hk, hy⟩
    rw [hσ.find hd.le hk] at hy
    obtain ⟨x, hx, rfl⟩ := Option.map_eq_some_iff.mp hy
    exact ⟨x, ⟨d, hd, k, hk, hx⟩, rfl⟩
  · rintro ⟨x, ⟨d, hd, k, hk, hx⟩, rfl⟩
    exact ⟨d, hd, k, hk, by rw [hσ.find hd.le hk, hx, Option.map_some]⟩

theorem Moved.apart (hσ : Moved child child' fan h root σ) (hapart : Apart child fan h root)
    (hinj : ∀ x y, Mem child fan h root x → Mem child fan h root y → σ x = σ y → x = y) :
    Apart child' fan h (σ root) := by
  intro d e j k z hd he hj hk hjz hkz
  rw [hσ.find hd hj] at hjz
  rw [hσ.find he hk] at hkz
  obtain ⟨x, hx, rfl⟩ := Option.map_eq_some_iff.mp hjz
  obtain ⟨y, hy, hxy⟩ := Option.map_eq_some_iff.mp hkz
  obtain rfl := hinj y x ⟨e, he, k, hk, hy⟩ ⟨d, hd, j, hj, hx⟩ hxy
  exact hapart d e j k y hd he hj hk hx hy

/-- Where the slots of the inner pages stay, the tree does. -/
theorem moved_id (hsame : ∀ x i, Inner child fan h root x → i < fan → child' x i = child x i) :
    Moved child child' fan h root id := fun x i hx hi => by simp [hsame x i hx hi]

theorem Moved.find_id (hσ : Moved child child' fan h root id) (hd : d ≤ h) (hk : k < fan ^ d) :
    Radix.find child' fan d root k = Radix.find child fan d root k := by
  simpa using hσ.find hd hk

/-! ## Exchanging a page -/

/-- The page `b` behind the slot `i` of `x` is copied to `q`, and the slot follows. -/
structure Exchange (child child' : P → ℕ → Option P) (x : P) (i : ℕ) (b q : P) : Prop where
  slot : child x i = some b
  follows : child' x i = some q
  copied : ∀ j, child' q j = child b j
  stays : ∀ y j, y ≠ q → (y = x → j ≠ i) → child' y j = child y j

variable [DecidableEq P]

/-- `q` in the place of `b`. -/
def swap (b q x : P) : P := if x = b then q else x

theorem swap_self : swap b q b = q := if_pos rfl

theorem swap_of_ne (hne : x ≠ b) : swap b q x = x := if_neg hne

theorem swap_inj (hx : x ≠ q) (hy : y ≠ q) (heq : swap b q x = swap b q y) : x = y := by
  unfold swap at heq
  grind

theorem Exchange.moved (hex : Exchange child child' x i b q) (hapart : Apart child fan h root)
    (hx : Inner child fan h root x) (hi : i < fan) (hq : ¬Mem child fan h root q) :
    Moved child child' fan h root (swap b q) := by
  have hne := hapart.slot_ne hx hi hex.slot
  intro y j hy hj
  by_cases hyb : y = b
  · -- the copy
    subst hyb
    rw [swap_self, hex.copied]
    cases hc : child y j with
    | none => rfl
    | some c => rw [Option.map_some, swap_of_ne (hapart.slot_ne hy hj hc).1]
  · have hyq : y ≠ q := fun heq => hq (heq ▸ hy.mem)
    rw [swap_of_ne hyb]
    by_cases hslot : y = x ∧ j = i
    · obtain ⟨rfl, rfl⟩ := hslot
      rw [hex.follows, hex.slot, Option.map_some, swap_self]
    · rw [hex.stays y j hyq fun hyx hji => hslot ⟨hyx, hji⟩]
      cases hc : child y j with
      | none => rfl
      | some c =>
        have hcb : c ≠ b := by
          rintro rfl
          exact hslot (hapart.slot_unique hy hx hj hi hc hex.slot)
        rw [Option.map_some, swap_of_ne hcb]

/-- The tree with the page exchanged. -/
theorem Exchange.apart (hex : Exchange child child' x i b q) (hapart : Apart child fan h root)
    (hx : Inner child fan h root x) (hi : i < fan) (hq : ¬Mem child fan h root q) :
    Apart child' fan h root := by
  have hroot : swap b q root = root := swap_of_ne (hapart.slot_ne hx hi hex.slot).2.symm
  have hmoved := (hex.moved hapart hx hi hq).apart hapart fun y z hy hz =>
    swap_inj (fun heq => hq (heq ▸ hy)) (fun heq => hq (heq ▸ hz))
  rwa [hroot] at hmoved

end Radix
