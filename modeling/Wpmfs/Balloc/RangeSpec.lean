import Mathlib.Algebra.Order.Ring.Int
import Mathlib.Algebra.Order.Ring.Nat
import Mathlib.Tactic.Tauto
import Wpmfs.Library.Ranges
import Wpmfs.Balloc.RangeList

/-!
# What one call does to the list

An allocation adds a run of free blocks to the set of used ones (`Grants`), a free takes a run
out of one range (`Releases`); both keep the list in order with gaps. There is one lemma for
each way the run may lie, then one for the round of the loop, then one for the loop.
-/

namespace Wpmfs.Balloc

open Ranges

namespace RangeAlloc

/-- Block `x` is in a range of the list. -/
abbrev Used : List BlockNode → Nat → Prop := Covers BlockNode.blockLow BlockNode.blockHigh

/-- The number of blocks in the ranges. -/
abbrev usedTotal : List BlockNode → Nat := total BlockNode.blockLow BlockNode.blockHigh

abbrev Sorted : List BlockNode → Prop := Separated BlockNode.blockLow BlockNode.blockHigh

@[simp] theorem used_cons {i : BlockNode} {l : List BlockNode} {x : Nat} :
    Used (i :: l) x ↔ (i.blockLow ≤ x ∧ x ≤ i.blockHigh) ∨ Used l x := covers_cons

@[simp] theorem usedTotal_cons {i : BlockNode} {l : List BlockNode} :
    usedTotal (i :: l) = i.blockHigh + 1 - i.blockLow + usedTotal l := rfl

/-- `l'` is `l` with the free run of `n` blocks from `b` on added. -/
structure Grants (blockEnd n : Nat) (l : List BlockNode) (b : Nat) (l' : List BlockNode) :
    Prop where
  inside : b + n ≤ blockEnd
  free : ∀ x, b ≤ x → x < b + n → ¬Used l x
  sorted : Sorted l'
  used : ∀ x, Used l' x ↔ Used l x ∨ b ≤ x ∧ x < b + n
  length : usedTotal l' = usedTotal l + n
  above : ∀ r ∈ l', ∃ q ∈ l, q.blockLow ≤ r.blockLow
  below : (∀ r ∈ l, r.blockHigh < blockEnd) → ∀ r ∈ l', r.blockHigh < blockEnd

/-- `l'` is `l` with the `n` blocks from `b` on taken out. -/
structure Releases (n : Nat) (l : List BlockNode) (b : Nat) (l' : List BlockNode) : Prop where
  sorted : Sorted l'
  used : ∀ x, Used l' x ↔ Used l x ∧ ¬(b ≤ x ∧ x < b + n)
  length : usedTotal l = usedTotal l' + n
  within : ∀ r ∈ l', ∃ q ∈ l, q.blockLow ≤ r.blockLow ∧ r.blockHigh ≤ q.blockHigh

section Spec

variable {blockEnd n nodes nodes' b : Nat} {nodeOk : Bool} {i : BlockNode}
  {rest l l' : List BlockNode}

/-- Rounding up past `h` gives the least multiple above it. -/
theorem alignUp_spec (hn : 0 < n) (h : Nat) :
    n ∣ (h + n) / n * n ∧ h < (h + n) / n * n ∧ ∀ c, n ∣ c → h < c → (h + n) / n * n ≤ c := by
  have hdiv : (h + n) / n * n = h / n * n + n := by
    rw [Nat.add_div_right h hn, Nat.succ_mul]
  have hmod := Nat.div_add_mod' h n
  have hlt := Nat.mod_lt h hn
  refine ⟨Nat.dvd_mul_left _ _, by omega, ?_⟩
  rintro c ⟨k, rfl⟩ hk
  have : h / n < k := Nat.div_lt_of_lt_mul hk
  rw [hdiv, mul_comm n k, ← Nat.succ_mul]
  exact Nat.mul_le_mul_right n this

/-- A run right behind `i`, with a gap after it. -/
theorem grants_left (hs : Sorted (i :: rest)) (hn : 0 < n) (hend : i.blockHigh + 1 + n ≤ blockEnd)
    (hrest : ∀ q ∈ rest, i.blockHigh + 1 + n < q.blockLow) :
    Grants blockEnd n (i :: rest) (i.blockHigh + 1)
      ({ i with blockHigh := i.blockHigh + n } :: rest) := by
  obtain ⟨hi, hgap, hr⟩ := separated_cons.1 hs
  have hout : ∀ x, Used rest x → i.blockHigh + 1 + n < x := by
    rintro x ⟨q, hq, hle, -⟩
    exact (hrest q hq).trans_le hle
  refine ⟨hend, fun x hx hlt => ?_, ?_, fun x => ?_, ?_, ?_, ?_⟩
  · rw [used_cons]
    rintro (hin | hin)
    · omega
    · have := hout x hin
      omega
  · refine separated_cons.2 ⟨by dsimp only; omega, fun q hq => ?_, hr⟩
    have := hrest q hq
    dsimp only
    omega
  · simp only [used_cons]
    by_cases hx : Used rest x
    · simp [hx]
    · simp only [hx, or_false]
      omega
  · simp only [usedTotal_cons]
    omega
  · intro r hr
    rcases List.mem_cons.1 hr with rfl | hr
    · exact ⟨i, by simp, le_rfl⟩
    · exact ⟨r, by simp [hr], le_rfl⟩
  · simp only [List.forall_mem_cons]
    exact fun h => ⟨by omega, h.2⟩

/-- A run that fills the gap between `i` and `j`. -/
theorem grants_fill {j : BlockNode} {post : List BlockNode} (hs : Sorted (i :: j :: post))
    (hn : 0 < n) (hj : i.blockHigh + 1 + n = j.blockLow) (hend : j.blockHigh < blockEnd) :
    Grants blockEnd n (i :: j :: post) (i.blockHigh + 1)
      ({ i with blockHigh := j.blockHigh } :: post) := by
  obtain ⟨hi, hgap, hr⟩ := separated_cons.1 hs
  obtain ⟨hj', hgap', hr'⟩ := separated_cons.1 hr
  have hout : ∀ x, Used post x → j.blockHigh + 1 < x := fun x hx => hr.lt_of_covers hx
  refine ⟨by omega, fun x hx hlt => ?_, ?_, fun x => ?_, ?_, ?_, ?_⟩
  · rw [used_cons, used_cons]
    rintro (hin | hin | hin)
    · omega
    · omega
    · have := hout x hin
      omega
  · exact separated_cons.2 ⟨by dsimp only; omega, hgap', hr'⟩
  · simp only [used_cons]
    by_cases hx : Used post x
    · simp [hx]
    · simp only [hx, or_false]
      omega
  · simp only [usedTotal_cons]
    omega
  · intro r hr
    rcases List.mem_cons.1 hr with rfl | hr
    · exact ⟨i, by simp, le_rfl⟩
    · exact ⟨r, by simp [hr], le_rfl⟩
  · simp only [List.forall_mem_cons]
    exact fun h => ⟨h.2.1, h.2.2⟩

/-- A run right before `j`, with a gap after `i`. -/
theorem grants_right {j : BlockNode} {post : List BlockNode} (hs : Sorted (i :: j :: post))
    (hn : 0 < n) (hb : i.blockHigh + 1 < b) (hj : b + n = j.blockLow)
    (hend : j.blockHigh < blockEnd) :
    Grants blockEnd n (i :: j :: post) b (i :: { j with blockLow := b } :: post) := by
  obtain ⟨hi, hgap, hr⟩ := separated_cons.1 hs
  obtain ⟨hj', hgap', hr'⟩ := separated_cons.1 hr
  have hout : ∀ x, Used post x → j.blockHigh + 1 < x := fun x hx => hr.lt_of_covers hx
  refine ⟨by omega, fun x hx hlt => ?_, ?_, fun x => ?_, ?_, ?_, ?_⟩
  · rw [used_cons, used_cons]
    rintro (hin | hin | hin)
    · omega
    · omega
    · have := hout x hin
      omega
  · refine separated_cons.2 ⟨hi, ?_, separated_cons.2 ⟨by dsimp only; omega, hgap', hr'⟩⟩
    simp only [List.forall_mem_cons] at hgap ⊢
    exact ⟨hb, hgap.2⟩
  · simp only [used_cons]
    by_cases hx : Used post x
    · simp [hx]
    · simp only [hx, or_false]
      omega
  · simp only [usedTotal_cons]
    omega
  · intro r hr
    rcases List.mem_cons.1 hr with rfl | hr
    · exact ⟨r, by simp, le_rfl⟩
    · refine ⟨i, by simp, ?_⟩
      rcases List.mem_cons.1 hr with rfl | hr
      · dsimp only
        omega
      · have := hgap r (by simp [hr])
        omega
  · simp

/-- A run with a gap on both sides. -/
theorem grants_middle (hs : Sorted (i :: rest)) (hn : 0 < n) (hb : i.blockHigh + 1 < b)
    (hend : b + n ≤ blockEnd) (hrest : ∀ q ∈ rest, b + n < q.blockLow) :
    Grants blockEnd n (i :: rest) b (i :: ⟨b, b + n - 1⟩ :: rest) := by
  obtain ⟨hi, hgap, hr⟩ := separated_cons.1 hs
  have hout : ∀ x, Used rest x → b + n < x := by
    rintro x ⟨q, hq, hle, -⟩
    exact (hrest q hq).trans_le hle
  refine ⟨hend, fun x hx hlt => ?_, ?_, fun x => ?_, ?_, ?_, ?_⟩
  · rw [used_cons]
    rintro (hin | hin)
    · omega
    · have := hout x hin
      omega
  · refine separated_cons.2 ⟨hi, ?_, separated_cons.2 ⟨by dsimp only; omega, fun q hq => ?_, hr⟩⟩
    · simpa [hb] using hgap
    · have := hrest q hq
      dsimp only
      omega
  · simp only [used_cons]
    by_cases hx : Used rest x
    · simp [hx]
    · simp only [hx, or_false]
      omega
  · simp only [usedTotal_cons]
    omega
  · intro r hr
    rcases List.mem_cons.1 hr with rfl | hr
    · exact ⟨r, by simp, le_rfl⟩
    · refine ⟨i, by simp, ?_⟩
      rcases List.mem_cons.1 hr with rfl | hr
      · dsimp only
        omega
      · have := hgap r hr
        omega
  · simp only [List.forall_mem_cons]
    exact fun h => ⟨h.1, by omega, h.2⟩

theorem place_found (hs : Sorted (i :: rest)) (hn : 0 < n)
    (hend : ∀ r ∈ i :: rest, r.blockHigh < blockEnd) (hnodes : (i :: rest).length ≤ nodes)
    (h : place blockEnd n nodeOk nodes i rest = .found b l' nodes') :
    b = (i.blockHigh + n) / n * n ∧ Grants blockEnd n (i :: rest) b l' ∧
      nodes' + (i :: rest).length = nodes + l'.length := by
  obtain ⟨-, hlow, -⟩ := alignUp_spec hn i.blockHigh
  unfold place at h
  generalize (i.blockHigh + n) / n * n = new at h hlow
  obtain ⟨hi, hgap, hr⟩ := separated_cons.1 hs
  cases rest with
  | nil =>
    have hie := hend i (by simp)
    dsimp only at h
    split_ifs at h with hfit hfill hleft hright hok hmid hok
    all_goals simp only [Placed.found.injEq] at h
    · obtain ⟨rfl, rfl, rfl⟩ := h
      obtain rfl : new = i.blockHigh + 1 := hfill.1
      have hhigh : i.blockHigh + 1 + n - 1 = i.blockHigh + n := by omega
      rw [hhigh]
      exact ⟨rfl, grants_left hs hn (by omega) (by simp), rfl⟩
    · obtain ⟨rfl, rfl, rfl⟩ := h
      obtain rfl : new = i.blockHigh + 1 := hleft.1
      have hhigh : i.blockHigh + 1 + n - 1 = i.blockHigh + n := by omega
      rw [hhigh]
      exact ⟨rfl, grants_left hs hn (by omega) (by simp), rfl⟩
    · obtain ⟨rfl, rfl, rfl⟩ := h
      exact ⟨rfl, grants_middle hs hn hright.1 (by omega) (by simp), rfl⟩
    · obtain ⟨rfl, rfl, rfl⟩ := h
      exact ⟨rfl, grants_middle hs hn hmid.1 (by omega) (by simp), rfl⟩
  | cons j post =>
    have hje := hend j (by simp)
    obtain ⟨hj, hgap', -⟩ := separated_cons.1 hr
    have hpost : ∀ q ∈ post, j.blockLow < q.blockLow := fun q hq => by
      have := hgap' q hq
      omega
    simp only [List.length_cons] at hnodes
    dsimp only at h
    split_ifs at h with hfit hfill hleft hright hmid hok
    all_goals simp only [Placed.found.injEq] at h
    · obtain ⟨rfl, rfl, rfl⟩ := h
      obtain rfl : new = i.blockHigh + 1 := hfill.1
      exact ⟨rfl, grants_fill hs hn (by omega) hje, by simp; omega⟩
    · obtain ⟨rfl, rfl, rfl⟩ := h
      obtain rfl : new = i.blockHigh + 1 := hleft.1
      have hhigh : i.blockHigh + 1 + n - 1 = i.blockHigh + n := by omega
      rw [hhigh]
      refine ⟨rfl, grants_left hs hn (by omega) fun q hq => ?_, rfl⟩
      rcases List.mem_cons.1 hq with rfl | hq
      · omega
      · have := hpost q hq
        omega
    · obtain ⟨rfl, rfl, rfl⟩ := h
      exact ⟨rfl, grants_right hs hn hright.1 (by omega) hje, rfl⟩
    · obtain ⟨rfl, rfl, rfl⟩ := h
      refine ⟨rfl, grants_middle hs hn hmid.1 (by omega) fun q hq => ?_, by simp; omega⟩
      rcases List.mem_cons.1 hq with rfl | hq
      · omega
      · have := hpost q hq
        omega

/-- What a round grants is the lowest run behind `i`. -/
theorem place_least (hs : Sorted (i :: rest)) (hn : 0 < n)
    (hend : ∀ r ∈ i :: rest, r.blockHigh < blockEnd) (hnodes : (i :: rest).length ≤ nodes)
    (h : place blockEnd n nodeOk nodes i rest = .found b l' nodes') :
    IsLeast {c | AlignedRun (fun x => x < blockEnd ∧ ¬Used (i :: rest) x) n i.blockHigh c} b ∧
      Grants blockEnd n (i :: rest) b l' ∧
      nodes' + (i :: rest).length = nodes + l'.length := by
  obtain ⟨hb, hg, hlen⟩ := place_found hs hn hend hnodes h
  obtain ⟨hdvd, hlow, hmin⟩ := alignUp_spec hn i.blockHigh
  rw [← hb] at hdvd hlow hmin
  have hi := hg.inside
  exact ⟨⟨⟨hdvd, hlow, fun x hx hlt => ⟨by omega, hg.free x hx hlt⟩⟩,
    fun c hc => hmin c hc.1 hc.2.1⟩, hg, hlen⟩

theorem place_noNode (h : place blockEnd n nodeOk nodes i rest = .noNode) : nodeOk = false := by
  unfold place at h
  cases rest <;> dsimp only at h <;> split_ifs at h <;> simp_all

/-- A single block fits behind the first range, as the ranges do not touch. It needs no node. -/
theorem place_one (hs : Sorted (i :: rest)) (hroom : rest = [] → i.blockHigh + 1 < blockEnd) :
    ∃ b l nodes', place blockEnd 1 nodeOk nodes i rest = .found b l nodes' := by
  have hgap := (separated_cons.1 hs).2.1
  cases hp : place blockEnd 1 nodeOk nodes i rest with
  | found b l nodes' => exact ⟨b, l, nodes', rfl⟩
  | noFit =>
    unfold place at hp
    cases rest with
    | nil =>
      have hend := hroom rfl
      dsimp only at hp
      split_ifs at hp
      all_goals omega
    | cons j post =>
      have hj := hgap j (List.mem_cons_self ..)
      dsimp only at hp
      split_ifs at hp
      all_goals omega
  | noNode =>
    unfold place at hp
    cases rest <;> dsimp only at hp <;> split_ifs at hp <;> omega

/-- Where a round finds no room, no aligned run ends below the next range. -/
theorem place_noFit (hs : Sorted (i :: rest)) (hn : 0 < n)
    (h : place blockEnd n nodeOk nodes i rest = .noFit) {c : Nat}
    (hc : AlignedRun (fun x => x < blockEnd ∧ ¬Used (i :: rest) x) n i.blockHigh c) :
    ∃ j post, rest = j :: post ∧ j.blockHigh < c := by
  obtain ⟨-, hlow, hmin⟩ := alignUp_spec hn i.blockHigh
  have hle := hmin c hc.1 hc.2.1
  have hfree := hc.2.2
  unfold place at h
  generalize (i.blockHigh + n) / n * n = new at h hlow hle
  obtain ⟨hi, hgap, hr⟩ := separated_cons.1 hs
  cases rest with
  | nil =>
    have hlast := (hfree (c + n - 1) (by omega) (by omega)).1
    dsimp only at h
    split_ifs at h
    all_goals omega
  | cons j post =>
    refine ⟨j, post, rfl, ?_⟩
    have hgapj := hgap j (by simp)
    have hj := (separated_cons.1 hr).1
    by_contra hlt
    have hbefore : c + n - 1 < j.blockLow := by
      by_contra hge
      have := (hfree (max c j.blockLow) (by omega) (by omega)).2
      simp only [used_cons] at this
      omega
    dsimp only at h
    split_ifs at h
    all_goals omega

/-- A run granted behind `i` is granted with `i` in front. -/
theorem Grants.cons (h : Grants blockEnd n rest b l') (hs : Sorted (i :: rest))
    (hb : i.blockHigh < b) : Grants blockEnd n (i :: rest) b (i :: l') := by
  refine ⟨h.inside, fun x hx hlt => ?_, ?_, fun x => ?_, ?_, fun r hr => ?_, ?_⟩
  · rw [used_cons]
    rintro (hin | hin)
    · omega
    · exact h.free x hx hlt hin
  · exact Separated.replace [i] hs h.sorted h.above
  · simp only [used_cons, h.used, or_assoc]
  · simp only [usedTotal_cons, h.length, add_assoc]
  · rcases List.mem_cons.1 hr with rfl | hr
    · exact ⟨r, by simp, le_rfl⟩
    · obtain ⟨q, hq, hle⟩ := h.above r hr
      exact ⟨q, by simp [hq], hle⟩
  · simp only [List.forall_mem_cons]
    exact fun hall => ⟨hall.1, h.below hall.2⟩

/-- The loop takes the lowest run behind the first node. -/
theorem placeLoop_found (hs : Sorted (i :: rest)) (hn : 0 < n)
    (hend : ∀ r ∈ i :: rest, r.blockHigh < blockEnd) (hnodes : (i :: rest).length ≤ nodes)
    (h : placeLoop blockEnd n nodeOk nodes (i :: rest) = .found b l' nodes') :
    IsLeast {c | AlignedRun (fun x => x < blockEnd ∧ ¬Used (i :: rest) x) n i.blockHigh c} b ∧
      Grants blockEnd n (i :: rest) b l' ∧
      nodes' + (i :: rest).length = nodes + l'.length := by
  induction rest generalizing i l' with
  | nil =>
    rw [placeLoop] at h
    cases hp : place blockEnd n nodeOk nodes i [] with
    | noFit => simp [hp, placeLoop] at h
    | noNode => simp [hp] at h
    | found b₁ l₁ nodes₁ =>
      obtain ⟨rfl, rfl, rfl⟩ : b₁ = b ∧ l₁ = l' ∧ nodes₁ = nodes' := by simpa [hp] using h
      exact place_least hs hn hend hnodes hp
  | cons j post ih =>
    rw [placeLoop] at h
    cases hp : place blockEnd n nodeOk nodes i (j :: post) with
    | noNode => simp [hp] at h
    | found b₁ l₁ nodes₁ =>
      obtain ⟨rfl, rfl, rfl⟩ : b₁ = b ∧ l₁ = l' ∧ nodes₁ = nodes' := by simpa [hp] using h
      exact place_least hs hn hend hnodes hp
    | noFit =>
      obtain ⟨hi, hgap, hr⟩ := separated_cons.1 hs
      have hij := hgap j (by simp)
      have hj := (separated_cons.1 hr).1
      cases hl : placeLoop blockEnd n nodeOk nodes (j :: post) with
      | noFit => simp [hp, hl] at h
      | noNode => simp [hp, hl] at h
      | found b₁ l₁ nodes₁ =>
        obtain ⟨rfl, rfl, rfl⟩ : b₁ = b ∧ i :: l₁ = l' ∧ nodes₁ = nodes' := by
          simpa [hp, hl] using h
        obtain ⟨⟨hrun, hleast⟩, hg, hlen⟩ := ih hr (fun r hm => hend r (by simp [hm]))
          (by simp only [List.length_cons] at hnodes ⊢; omega) hl
        have hb : i.blockHigh < b₁ := by
          have := hrun.2.1
          omega
        refine ⟨⟨⟨hrun.1, hb, fun x hx hlt => ⟨(hrun.2.2 x hx hlt).1, ?_⟩⟩, fun c hc => ?_⟩,
          hg.cons hs hb, by simp only [List.length_cons] at hlen ⊢; omega⟩
        · exact (hg.cons hs hb).free x hx hlt
        · obtain ⟨j', post', heq, hjc⟩ := place_noFit hs hn hp hc
          obtain ⟨rfl, rfl⟩ := List.cons.inj heq
          refine hleast ⟨hc.1, hjc, fun x hx hlt => ⟨(hc.2.2 x hx hlt).1, fun hu => ?_⟩⟩
          exact (hc.2.2 x hx hlt).2 (used_cons.2 (.inr hu))

theorem placeLoop_noNode (h : placeLoop blockEnd n nodeOk nodes l = .noNode) :
    nodeOk = false := by
  induction l with
  | nil => simp [placeLoop] at h
  | cons i rest ih =>
    rw [placeLoop] at h
    cases hp : place blockEnd n nodeOk nodes i rest with
    | noNode => exact place_noNode hp
    | found => simp [hp] at h
    | noFit =>
      cases hl : placeLoop blockEnd n nodeOk nodes rest with
      | noNode => exact ih hl
      | noFit => simp [hp, hl] at h
      | found => simp [hp, hl] at h

theorem placeLoop_noFit (hs : Sorted (i :: rest)) (hn : 0 < n)
    (h : placeLoop blockEnd n nodeOk nodes (i :: rest) = .noFit) (c : Nat) :
    ¬AlignedRun (fun x => x < blockEnd ∧ ¬Used (i :: rest) x) n i.blockHigh c := by
  intro hc
  induction rest generalizing i with
  | nil =>
    rw [placeLoop] at h
    cases hp : place blockEnd n nodeOk nodes i [] with
    | noNode => simp [hp] at h
    | found => simp [hp] at h
    | noFit => obtain ⟨j, post, heq, -⟩ := place_noFit hs hn hp hc; simp at heq
  | cons j post ih =>
    rw [placeLoop] at h
    cases hp : place blockEnd n nodeOk nodes i (j :: post) with
    | noNode => simp [hp] at h
    | found => simp [hp] at h
    | noFit =>
      obtain ⟨j', post', heq, hjc⟩ := place_noFit hs hn hp hc
      obtain ⟨rfl, rfl⟩ := List.cons.inj heq
      refine ih (separated_cons.1 hs).2.2 ?_
        ⟨hc.1, hjc, fun x hx hlt => ⟨(hc.2.2 x hx hlt).1, fun hu => ?_⟩⟩
      · cases hl : placeLoop blockEnd n nodeOk nodes (j :: post) with
        | noFit => rfl
        | noNode => simp [hp, hl] at h
        | found => simp [hp, hl] at h
      · exact (hc.2.2 x hx hlt).2 (used_cons.2 (.inr hu))

/-- A run that is all of `i`. -/
theorem releases_whole (hs : Sorted (i :: rest)) (hn : 0 < n)
    (hhigh : i.blockLow + n = i.blockHigh + 1) :
    Releases n (i :: rest) i.blockLow rest := by
  have hout : ∀ x, Used rest x → i.blockHigh + 1 < x := fun x hx => hs.lt_of_covers hx
  refine ⟨(separated_cons.1 hs).2.2, fun x => ?_, ?_, fun r hm => ?_⟩
  · rw [used_cons]
    by_cases hx : Used rest x
    · have := hout x hx
      simp only [hx, or_true, true_and, true_iff]
      omega
    · simp only [hx, or_false, false_iff]
      omega
  · simp only [usedTotal_cons]
    omega
  · exact ⟨r, by simp [hm], le_rfl, le_rfl⟩

/-- A run at the start of `i`. -/
theorem releases_left (hs : Sorted (i :: rest)) (hn : 0 < n)
    (hhigh : i.blockLow + n ≤ i.blockHigh) :
    Releases n (i :: rest) i.blockLow ({ i with blockLow := i.blockLow + n } :: rest) := by
  obtain ⟨hi, hgap, hr⟩ := separated_cons.1 hs
  have hout : ∀ x, Used rest x → i.blockHigh + 1 < x := fun x hx => hs.lt_of_covers hx
  refine ⟨separated_cons.2 ⟨hhigh, hgap, hr⟩, fun x => ?_, ?_, fun r hm => ?_⟩
  · simp only [used_cons]
    by_cases hx : Used rest x
    · have := hout x hx
      simp only [hx, or_true, true_and, true_iff]
      omega
    · simp only [hx, or_false]
      omega
  · simp only [usedTotal_cons]
    omega
  · rcases List.mem_cons.1 hm with rfl | hm
    · exact ⟨i, by simp, by dsimp only; omega, le_rfl⟩
    · exact ⟨r, by simp [hm], le_rfl, le_rfl⟩

/-- A run at the end of `i`. -/
theorem releases_right (hs : Sorted (i :: rest)) (hn : 0 < n) (hlow : i.blockLow < b)
    (hhigh : b + n = i.blockHigh + 1) :
    Releases n (i :: rest) b ({ i with blockHigh := b - 1 } :: rest) := by
  obtain ⟨hi, hgap, hr⟩ := separated_cons.1 hs
  have hout : ∀ x, Used rest x → i.blockHigh + 1 < x := fun x hx => hs.lt_of_covers hx
  refine ⟨separated_cons.2 ⟨by dsimp only; omega, fun q hq => ?_, hr⟩, fun x => ?_, ?_,
    fun r hm => ?_⟩
  · have := hgap q hq
    dsimp only
    omega
  · simp only [used_cons]
    by_cases hx : Used rest x
    · have := hout x hx
      simp only [hx, or_true, true_and, true_iff]
      omega
    · simp only [hx, or_false]
      omega
  · simp only [usedTotal_cons]
    omega
  · rcases List.mem_cons.1 hm with rfl | hm
    · exact ⟨i, by simp, le_rfl, by dsimp only; omega⟩
    · exact ⟨r, by simp [hm], le_rfl, le_rfl⟩

/-- A run inside of `i`. -/
theorem releases_middle (hs : Sorted (i :: rest)) (hn : 0 < n) (hlow : i.blockLow < b)
    (hhigh : b + n ≤ i.blockHigh) :
    Releases n (i :: rest) b
      ({ i with blockHigh := b - 1 } :: ⟨b + n, i.blockHigh⟩ :: rest) := by
  obtain ⟨hi, hgap, hr⟩ := separated_cons.1 hs
  have hout : ∀ x, Used rest x → i.blockHigh + 1 < x := fun x hx => hs.lt_of_covers hx
  refine ⟨separated_cons.2 ⟨by dsimp only; omega, fun q hq => ?_,
    separated_cons.2 ⟨hhigh, hgap, hr⟩⟩, fun x => ?_, ?_, fun r hm => ?_⟩
  · rcases List.mem_cons.1 hq with rfl | hq
    · dsimp only
      omega
    · have := hgap q hq
      dsimp only
      omega
  · simp only [used_cons]
    by_cases hx : Used rest x
    · have := hout x hx
      simp only [hx, or_true, true_and, true_iff]
      omega
    · simp only [hx, or_false]
      omega
  · simp only [usedTotal_cons]
    omega
  · rcases List.mem_cons.1 hm with rfl | hm
    · exact ⟨i, by simp, le_rfl, by dsimp only; omega⟩
    rcases List.mem_cons.1 hm with rfl | hm
    · exact ⟨i, by simp, by dsimp only; omega, le_rfl⟩
    · exact ⟨r, by simp [hm], le_rfl, le_rfl⟩

variable (nodeOk) in
/-- What a round of the freeing loop does at the range that holds the run. -/
theorem carve_spec (pos : Nat) (hs : Sorted (i :: rest)) (hn : 0 < n)
    (hnodes : (i :: rest).length ≤ nodes) (hlow : i.blockLow ≤ b)
    (hhigh : b + n ≤ i.blockHigh + 1) :
    carve b (b + n - 1) nodeOk nodes pos i rest = .noNode ∧ nodeOk = false ∨
      ∃ l' nodes' hint, carve b (b + n - 1) nodeOk nodes pos i rest = .freed l' nodes' hint ∧
        Releases n (i :: rest) b l' ∧ nodes' + (i :: rest).length = nodes + l'.length ∧
        ∀ p, hint = some p → p < pos + l'.length := by
  have hnext : b + n - 1 + 1 = b + n := by omega
  have hhint : ∀ (k p : Nat), (if rest = [] then none else some k) = some p →
      k = p ∧ 0 < rest.length := by
    intro k p hp
    split_ifs at hp with hrest
    exact ⟨Option.some.inj hp, List.length_pos_iff.2 hrest⟩
  simp only [List.length_cons] at hnodes
  unfold carve
  rw [if_neg (by omega), hnext]
  by_cases hwhole : b = i.blockLow ∧ b + n - 1 = i.blockHigh
  · rw [if_pos hwhole]
    obtain rfl := hwhole.1
    refine .inr ⟨_, _, _, rfl, releases_whole hs hn (by omega), ?_, fun p hp => ?_⟩
    · simp only [List.length_cons]
      omega
    · have := hhint _ _ hp
      omega
  rw [if_neg hwhole]
  by_cases hleft : b = i.blockLow ∧ b + n - 1 < i.blockHigh
  · rw [if_pos hleft]
    obtain rfl := hleft.1
    refine .inr ⟨_, _, _, rfl, releases_left hs hn (by omega), rfl, fun p hp => ?_⟩
    obtain rfl := Option.some.inj hp
    simp
  rw [if_neg hleft]
  by_cases hright : b > i.blockLow ∧ b + n - 1 = i.blockHigh
  · rw [if_pos hright]
    refine .inr ⟨_, _, _, rfl, releases_right hs hn hright.1 (by omega), rfl, fun p hp => ?_⟩
    have := hhint _ _ hp
    simp only [List.length_cons]
    omega
  rw [if_neg hright, if_pos (by omega)]
  cases nodeOk with
  | false => exact .inl ⟨rfl, rfl⟩
  | true =>
    refine .inr ⟨_, _, _, rfl, releases_middle hs hn (by omega) (by omega), ?_, fun p hp => ?_⟩
    · simp only [List.length_cons]
      omega
    · obtain rfl := Option.some.inj hp
      simp only [List.length_cons]
      omega

/-- A run released behind `i` is released with `i` in front. -/
theorem Releases.cons (h : Releases n rest b l') (hs : Sorted (i :: rest))
    (hb : i.blockHigh < b) : Releases n (i :: rest) b (i :: l') := by
  refine ⟨?_, fun x => ?_, ?_, fun r hr => ?_⟩
  · refine Separated.replace [i] hs h.sorted fun r hr => ?_
    obtain ⟨q, hq, hle, -⟩ := h.within r hr
    exact ⟨q, hq, hle⟩
  · simp only [used_cons, h.used]
    have : x ≤ i.blockHigh → ¬(b ≤ x ∧ x < b + n) := by omega
    tauto
  · simp only [usedTotal_cons, h.length, add_assoc]
  · rcases List.mem_cons.1 hr with rfl | hr
    · exact ⟨r, by simp, le_rfl, le_rfl⟩
    · obtain ⟨q, hq, hle⟩ := h.within r hr
      exact ⟨q, by simp [hq], hle⟩

theorem Releases.append {pre : List BlockNode} (h : Releases n l b l') (hs : Sorted (pre ++ l))
    (hpre : ∀ r ∈ pre, r.blockHigh < b) : Releases n (pre ++ l) b (pre ++ l') := by
  induction pre with
  | nil => exact h
  | cons i pre ih =>
    exact (ih (separated_cons.1 hs).2.2 fun r hr => hpre r (by simp [hr])).cons hs
      (hpre i (by simp))

variable (nodeOk) in
/-- The loop frees a run that a range at or after its start holds, unless a node is missing. -/
theorem carveLoop_spec (pos : Nat) (hs : Sorted l) (hn : 0 < n) (hnodes : l.length ≤ nodes)
    (hin : ∃ r ∈ l, r.blockLow ≤ b ∧ b + n ≤ r.blockHigh + 1) :
    carveLoop b (b + n - 1) nodeOk nodes pos l = .noNode ∧ nodeOk = false ∨
      ∃ l' nodes' hint, carveLoop b (b + n - 1) nodeOk nodes pos l = .freed l' nodes' hint ∧
        Releases n l b l' ∧ nodes' + l.length = nodes + l'.length ∧
        ∀ p, hint = some p → p < pos + l'.length := by
  induction l generalizing pos with
  | nil => simp at hin
  | cons i rest ih =>
    obtain ⟨r, hr, hlow, hhigh⟩ := hin
    obtain ⟨hi, hgap, hrest⟩ := separated_cons.1 hs
    rw [carveLoop]
    rcases List.mem_cons.1 hr with rfl | hr
    · obtain ⟨hc, hok⟩ | ⟨l', nodes', hint, hc, hspec⟩ :=
        carve_spec nodeOk pos hs hn hnodes hlow hhigh
      · exact .inl ⟨by rw [hc], hok⟩
      · exact .inr ⟨l', nodes', hint, by rw [hc], hspec⟩
    · have hlt := hgap r hr
      have hskip : carve b (b + n - 1) nodeOk nodes pos i rest = .notHere :=
        if_pos (by omega)
      rw [hskip]
      simp only [List.length_cons] at hnodes
      obtain ⟨hc, hok⟩ | ⟨l', nodes', hint, hc, hrel, hlen, hhint⟩ :=
        ih (pos + 1) hrest (by omega) ⟨r, hr, hlow, hhigh⟩
      · exact .inl ⟨by rw [hc], hok⟩
      · refine .inr ⟨i :: l', nodes', hint, by rw [hc], hrel.cons hs (by omega), ?_, ?_⟩
        · simp only [List.length_cons]
          omega
        · intro p hp
          have := hhint p hp
          simp only [List.length_cons]
          omega

end Spec

end RangeAlloc

end Wpmfs.Balloc
