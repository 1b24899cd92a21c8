import Mathlib.Algebra.Order.Ring.Int
import Mathlib.Algebra.Order.Ring.Nat
import Mathlib.Tactic.Positivity
import Mathlib.Tactic.Ring
import Wpmfs.Pages.Basic

/-!
# Where the pages of a tree are

A map `own` says of each page of an inode which one it is: how many levels it is above the blocks,
and its number among the pages of that level. `Placed` states that the pointers of a tree agree with
it. So two pages of a tree are never the same, and stores to the pages below one pointer leave the
rest of the tree alone (`Placed.congr`).
-/

namespace Wpmfs.Pages

open Bytes

/-- The level and the number of each page that is in use. -/
abbrev Owner := ℕ → Option (ℕ × ℕ)

/-- The bytes of a page. -/
def page (p : ℕ) : Set ℕ := {x | p ≤ x ∧ x < p + 4096}

/-- A block of the direct area, outside the inode. -/
structure Usable (pi p : ℕ) : Prop where
  aligned : p % 4096 = 0
  pos : 0 < p
  le : p + 4096 ≤ 2 ^ 57
  apart : pi + 48 ≤ p ∨ p + 4096 ≤ pi

/-- The pages in use are blocks, and so are the free ones, which are not in use. -/
structure Room (pi : ℕ) (own : Owner) (free : List ℕ) : Prop where
  usable : ∀ p, own p ≠ none → Usable pi p
  unused : ∀ p ∈ free, own p = none ∧ Usable pi p
  nodup : free.Nodup

/-- Pages that are in use stay so. -/
def Extends (own own' : Owner) : Prop := ∀ p, own p ≠ none → own' p = own p

/-- The page `p` is number `idx` of level `l`, and below it everything is where it should be. -/
def Placed (own : Owner) (m : Mem) : (l p idx : ℕ) → Prop
  | 0, p, idx => own p = some (0, idx)
  | l + 1, p, idx => own p = some (l + 1, idx) ∧
    ∀ i < 512, slot m p i ≠ 0 → Placed own m l (slot m p i) (512 * idx + i)

/-- A page of pointers of the tree whose top is page `idx` of level `l`. -/
def Below (own : Owner) (l idx p : ℕ) : Prop :=
  ∃ j k, own p = some (j + 1, k) ∧ j + 1 ≤ l ∧ k / 512 ^ (l - (j + 1)) = idx

/-- The bytes of pages that came into use. -/
def newBytes (own own' : Owner) : Set ℕ := {x | ∃ p, own p = none ∧ own' p ≠ none ∧ x ∈ page p}

/-- The bytes of the pages of pointers of a tree. -/
def nodeBytes (own : Owner) (l idx : ℕ) : Set ℕ := {x | ∃ p, Below own l idx p ∧ x ∈ page p}

variable {own own' own'' : Owner} {m m' : Mem} {pi p q b l idx i j k n v x : ℕ} {free : List ℕ}

/-! ## Pointers -/

theorem setSlot_of_outside (h : x < p + 8 * i ∨ p + 8 * i + 8 ≤ x) : setSlot m p i v x = m x :=
  writeLE_of_outside h

theorem slot_congr (hi : i < 512) (h : ∀ x ∈ page p, m' x = m x) : slot m' p i = slot m p i :=
  readLE_congr fun x hx hlt => h x ⟨by omega, by omega⟩

theorem slot_setSlot (hv : v < 2 ^ 64) : slot (setSlot m p i v) p i = v := readLE_writeLE hv

theorem slot_setSlot_of_ne (h : j ≠ i) : slot (setSlot m p i v) p j = slot m p j :=
  readLE_congr fun x hx hlt => setSlot_of_outside (by omega)

theorem readLE_zero (h : ∀ y, x ≤ y → y < x + n → m y = 0) : readLE m x n = 0 := by
  induction n generalizing x with
  | zero => rfl
  | succ n ih =>
    rw [readLE, ih fun y hy hlt => h y (by omega) (by omega), h x le_rfl (by omega)]
    rfl

theorem slot_zeroBlock (hi : i < 512) : slot (zeroBlock m b) b i = 0 :=
  readLE_zero fun _ hy hlt => if_pos ⟨by omega, by omega⟩

theorem zeroBlock_of_notMem (h : x ∉ page b) : zeroBlock m b x = m x := if_neg h

/-! ## Pages -/

theorem page_disjoint (hp : Usable pi p) (hq : Usable pi q) (hne : p ≠ q) (hx : x ∈ page p) :
    x ∉ page q := by
  have := hp.aligned
  have := hq.aligned
  rintro ⟨hle, hlt⟩
  obtain ⟨hle', hlt'⟩ := hx
  omega

theorem Extends.refl : Extends own own := fun _ _ => rfl

theorem Extends.trans (h : Extends own own') (h' : Extends own' own'') : Extends own own'' :=
  fun p hp => (h' p (by rwa [h p hp])).trans (h p hp)

theorem Extends.ne_none (h : Extends own own') (hp : own p ≠ none) : own' p ≠ none := by
  rwa [h p hp]

theorem extends_update {y : ℕ × ℕ} (h : own b = none) :
    Extends own (Function.update own b (some y)) := fun p hp =>
  Function.update_of_ne (by rintro rfl; exact hp h) ..

theorem newBytes_trans (h : Extends own own') (h' : Extends own' own'') :
    newBytes own own' ⊆ newBytes own own'' ∧ newBytes own' own'' ⊆ newBytes own own'' := by
  refine ⟨fun x hx => ?_, fun x hx => ?_⟩
  · obtain ⟨p, hold, hnew, hin⟩ := hx
    exact ⟨p, hold, h'.ne_none hnew, hin⟩
  · obtain ⟨p, hold, hnew, hin⟩ := hx
    refine ⟨p, ?_, hnew, hin⟩
    by_contra hp
    exact h.ne_none hp hold

theorem below_ne_none (h : Below own l idx p) : own p ≠ none := by
  obtain ⟨j, k, hp, -⟩ := h
  simp [hp]

theorem below_self (h : own p = some (l + 1, idx)) : Below own (l + 1) idx p :=
  ⟨l, idx, h, le_rfl, by simp⟩

theorem Below.child (h : Below own l (512 * idx + i) p) (hi : i < 512) :
    Below own (l + 1) idx p := by
  obtain ⟨j, k, hp, hle, hidx⟩ := h
  refine ⟨j, k, hp, by omega, ?_⟩
  rw [Nat.succ_sub hle, pow_succ, ← Nat.div_div_eq_div_mul, hidx]
  omega

theorem Below.unique (h : Below own l idx p) (h' : Below own l k p) : k = idx := by
  obtain ⟨j, a, hp, -, hidx⟩ := h
  obtain ⟨j', a', hp', -, hidx'⟩ := h'
  rw [hp] at hp'
  cases hp'
  exact hidx'.symm.trans hidx

theorem Below.of_extends (h : Below own' l idx p) (hext : Extends own own') (hp : own p ≠ none) :
    Below own l idx p := by
  obtain ⟨j, k, hown, hle⟩ := h
  exact ⟨j, k, (hext p hp).symm.trans hown, hle⟩

theorem nodeBytes_child (hi : i < 512) :
    nodeBytes own l (512 * idx + i) ⊆ nodeBytes own (l + 1) idx := by
  rintro x ⟨p, hp, hx⟩
  exact ⟨p, hp.child hi, hx⟩

theorem nodeBytes_extends (h : Extends own own') (h' : Extends own' own'') :
    nodeBytes own' l idx ⊆ newBytes own own'' ∪ nodeBytes own l idx := by
  rintro x ⟨p, hp, hx⟩
  by_cases hold : own p = none
  · exact .inl ⟨p, hold, h'.ne_none (below_ne_none hp), hx⟩
  · exact .inr ⟨p, hp.of_extends h hold, hx⟩

/-- The subtree of another pointer is apart from what changes below this one. -/
theorem apart_of_ne (hroom : Room pi own' free) (hext : Extends own own') (hij : j ≠ i)
    (hq : Below own l (512 * idx + j) q) (hx : x ∈ page q) :
    x ∉ newBytes own own' ∪ nodeBytes own l (512 * idx + i) := by
  have hold := below_ne_none hq
  have hused := hroom.usable q (hext.ne_none hold)
  rintro (⟨p, hnone, hnew, hin⟩ | ⟨p, hp, hin⟩)
  · exact page_disjoint hused (hroom.usable p hnew) (fun he => hold (he ▸ hnone)) hx hin
  · have hne : q ≠ p := by
      rintro rfl
      have := hp.unique hq
      omega
    exact page_disjoint hused (hroom.usable p (hext.ne_none (below_ne_none hp))) hne hx hin

theorem inode_apart (hroom : Room pi own' free) (hext : Extends own own') (hle : pi ≤ x)
    (hlt : x < pi + 48) : x ∉ newBytes own own' ∪ nodeBytes own l idx := by
  have hout : ∀ p, own' p ≠ none → x ∉ page p := by
    rintro p hp ⟨hple, hplt⟩
    have := (hroom.usable p hp).apart
    omega
  rintro (⟨p, -, hnew, hin⟩ | ⟨p, hp, hin⟩)
  · exact hout p hnew hin
  · exact hout p (hext.ne_none (below_ne_none hp)) hin

/-! ## Trees -/

theorem Placed.owner (h : Placed own m l p idx) : own p = some (l, idx) := by
  cases l with
  | zero => exact h
  | succ l => exact h.1

/-- A tree stays where it is, and all its blocks too, while its pages of pointers do. -/
theorem Placed.congr (h : Placed own m l p idx) (hext : Extends own own')
    (hm : ∀ x ∈ nodeBytes own l idx, m' x = m x) :
    Placed own' m' l p idx ∧ ∀ k < 512 ^ l, findFrom m' l p k = findFrom m l p k := by
  induction l generalizing p idx with
  | zero => exact ⟨(hext p (by rw [h.owner]; simp)).trans h, fun _ _ => rfl⟩
  | succ l ih =>
    obtain ⟨hown, hslots⟩ := h
    have hpage : ∀ x ∈ page p, m' x = m x := fun x hx => hm x ⟨p, below_self hown, hx⟩
    have hchild : ∀ i < 512, slot m p i ≠ 0 →
        Placed own' m' l (slot m p i) (512 * idx + i) ∧
        ∀ k < 512 ^ l, findFrom m' l (slot m p i) k = findFrom m l (slot m p i) k :=
      fun i hi hne => ih (hslots i hi hne) fun x hx => hm x (nodeBytes_child hi hx)
    refine ⟨⟨(hext p (by simp [hown])).trans hown, fun i hi hne => ?_⟩, fun k hk => ?_⟩
    · rw [slot_congr hi hpage] at hne ⊢
      exact (hchild i hi hne).1
    · have hi : k / 512 ^ l < 512 := Nat.div_lt_of_lt_mul (by rwa [pow_succ] at hk)
      rw [findFrom, findFrom, slot_congr hi hpage]
      split
      · rfl
      · rename_i hne
        exact (hchild _ hi hne).2 _ (Nat.mod_lt _ (by positivity))

/-- A block of the tree is the page that `own` says. -/
theorem Placed.own_find (h : Placed own m l p idx) (hk : k < 512 ^ l)
    (hfind : findFrom m l p k ≠ 0) : own (findFrom m l p k) = some (0, idx * 512 ^ l + k) := by
  induction l generalizing p idx k with
  | zero =>
    obtain rfl : k = 0 := by simpa using hk
    rw [findFrom, pow_zero, mul_one, add_zero]
    exact h
  | succ l ih =>
    have hi : k / 512 ^ l < 512 := Nat.div_lt_of_lt_mul (by rwa [pow_succ] at hk)
    rw [findFrom] at hfind ⊢
    by_cases hne : slot m p (k / 512 ^ l) = 0
    · rw [if_pos hne] at hfind
      exact absurd rfl hfind
    · rw [if_neg hne] at hfind ⊢
      rw [ih (h.2 _ hi hne) (Nat.mod_lt _ (by positivity)) hfind]
      have hdiv := Nat.div_add_mod k (512 ^ l)
      have hsucc : 512 ^ (l + 1) = 512 * 512 ^ l := pow_succ' ..
      have hmul : (512 * idx + k / 512 ^ l) * 512 ^ l =
          idx * (512 * 512 ^ l) + 512 ^ l * (k / 512 ^ l) := by ring
      rw [hsucc, hmul]
      congr 2
      omega

/-- The tree below a pointer. -/
theorem findFrom_succ (h : slot m p (k / 512 ^ l) ≠ 0) :
    findFrom m (l + 1) p k = findFrom m l (slot m p (k / 512 ^ l)) (k % 512 ^ l) := by
  rw [findFrom]
  exact if_neg h

theorem findFrom_of_slot (h : slot m p (k / 512 ^ l) = 0) : findFrom m (l + 1) p k = 0 := by
  rw [findFrom]
  exact if_pos h

end Wpmfs.Pages
