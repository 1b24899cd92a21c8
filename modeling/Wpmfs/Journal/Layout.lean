import Wpmfs.Journal.Scan
import Wpmfs.Journal.Transaction

/-!
# The layout of the journal

Where the regions of a run lie when no cleaning pass runs. The first ones follow each other
from the head; once the tail has wrapped, the others follow each other from offset 0 in the
next generation and stay below the head.
-/

namespace Wpmfs.Journal

open Persist

/-- A reserved region: `len` entries from `start` on. -/
structure Span where
  start : Nat
  len : Nat
  genId : UInt16

/-- Regions that follow each other from `a` to `b`, all of the generation `genId`. -/
structure Pass (genId : UInt16) (spans : List Span) (a b : Nat) : Prop where
  chain : Chain Span.start Span.len spans a b
  gen : ∀ x ∈ spans, x.genId = genId

theorem Pass.snoc {genId : UInt16} {spans : List Span} {a b : Nat} (h : Pass genId spans a b)
    (len : Nat) : Pass genId (spans ++ [⟨b, len, genId⟩]) a (b + 64 * len) := by
  refine ⟨chain_append.2 ⟨b, h.chain, rfl, rfl⟩, fun x hx => ?_⟩
  rcases List.mem_append.1 hx with hx | hx
  · exact h.gen x hx
  · rw [List.mem_singleton.1 hx]

/-- The regions of a run that started at `head` in the generation `genId`, for the current
tail and generation. -/
inductive Layout (sbi : SbInfo) (head : Nat) (genId : UInt16) :
    List Span → (tail : Nat) → (current : UInt16) → Prop where
  | straight {spans tail} : Pass genId spans head tail → tail < sbi.jsize →
      Layout sbi head genId spans tail genId
  | wrapped {spans₁ spans₂ stop tail} : Pass genId spans₁ head stop → stop ≤ sbi.jsize →
      Pass (nextGenId genId) spans₂ 0 tail → tail < head →
      Layout sbi head genId (spans₁ ++ spans₂) tail (nextGenId genId)

section

variable {sbi : SbInfo} {head tail req len : Nat} {genId current : UInt16} {spans : List Span}

theorem Layout.tail_lt (h : Layout sbi head genId spans tail current) (hlt : head < sbi.jsize) :
    tail < sbi.jsize := by
  cases h <;> omega

/-- Two regions have no entry in common. -/
def Span.Apart (x y : Span) : Prop :=
  x.start + 64 * x.len ≤ y.start ∨ y.start + 64 * y.len ≤ x.start

theorem Layout.pairwise (h : Layout sbi head genId spans tail current) :
    spans.Pairwise Span.Apart := by
  cases h with
  | straight hp _ => exact hp.chain.pairwise.imp fun h => .inl h
  | wrapped hp₁ _ hp₂ ht =>
    refine List.pairwise_append.2 ⟨hp₁.chain.pairwise.imp fun h => .inl h,
      hp₂.chain.pairwise.imp fun h => .inl h, fun x hx y hy => .inr ?_⟩
    have h₁ := hp₁.chain.bounds hx
    have h₂ := hp₂.chain.bounds hy
    omega

theorem Layout.bounds (h : Layout sbi head genId spans tail current) (hlt : head < sbi.jsize)
    {x : Span} (hx : x ∈ spans) : x.start + 64 * x.len ≤ sbi.jsize := by
  cases h with
  | straight hp _ =>
    have := hp.chain.bounds hx
    omega
  | wrapped hp₁ _ hp₂ _ =>
    rcases List.mem_append.1 hx with hx | hx
    · have := hp₁.chain.bounds hx
      omega
    · have := hp₂.chain.bounds hx
      omega

theorem Layout.dvd (h : Layout sbi head genId spans tail current) (hd : 64 ∣ head)
    {x : Span} (hx : x ∈ spans) : 64 ∣ x.start := by
  cases h with
  | straight hp _ => exact hp.chain.dvd hd hx
  | wrapped hp₁ _ hp₂ _ =>
    rcases List.mem_append.1 hx with hx | hx
    · exact hp₁.chain.dvd hd hx
    · exact hp₂.chain.dvd (Nat.dvd_zero _) hx

theorem Layout.genId_mem (h : Layout sbi head genId spans tail current) {x : Span}
    (hx : x ∈ spans) : x.genId ∈ ({genId, nextGenId genId} : Set UInt16) := by
  cases h with
  | straight hp _ => exact .inl (hp.gen x hx)
  | wrapped hp₁ _ hp₂ _ =>
    rcases List.mem_append.1 hx with hx | hx
    · exact .inl (hp₁.gen x hx)
    · exact .inr (hp₂.gen x hx)

/-- A reservation below the end of the journal. -/
theorem Layout.reserve (h : Layout sbi head genId spans tail current)
    (havail : 64 * len ≤ availSize sbi head tail) (hend : tail + 64 * len < sbi.jsize) :
    Layout sbi head genId (spans ++ [⟨tail, len, current⟩]) (tail + 64 * len) current := by
  cases h with
  | straight hp _ => exact .straight (hp.snoc len) hend
  | wrapped hp₁ hs hp₂ ht =>
    rw [List.append_assoc]
    refine .wrapped hp₁ hs (hp₂.snoc len) ?_
    rw [availSize, if_neg (by omega)] at havail
    omega

/-- Setting the tail to 0; this only happens once, and not with the head at 0. -/
theorem Layout.wrap (h : Layout sbi head genId spans tail current)
    (havail : req ≤ availSize sbi head tail) (hlt : head < sbi.jsize)
    (hend : sbi.jsize ≤ tail + req) : Layout sbi head genId spans 0 (nextGenId current) := by
  cases h with
  | straight hp ht =>
    have hle := hp.chain.le
    rw [availSize, if_pos hle] at havail
    have hw : Layout sbi head genId (spans ++ []) 0 (nextGenId genId) :=
      .wrapped hp (by omega) ⟨rfl, by simp⟩ (by omega)
    rwa [List.append_nil] at hw
  | wrapped hp₁ hs hp₂ ht =>
    rw [availSize, if_neg (by omega)] at havail
    omega

end

/-- The reservation finds room without cleaning, also after it sets the tail to 0. -/
def Fits (sbi : SbInfo) (s : Image) (maxLogEntries : Nat) : Prop :=
  reqSize maxLogEntries ≤ availSize sbi s.head s.tail ∧
    (sbi.jsize ≤ s.tail + reqSize maxLogEntries →
      reqSize maxLogEntries ≤ availSize sbi s.head 0)

/-- The image is laid out as `spans`, possibly with a region that is just being reserved. -/
def LaidOut (sbi : SbInfo) (head : Nat) (genId : UInt16) (spans : List Span) (s : Image) : Prop :=
  s.head = head ∧ ∃ pending, Layout sbi head genId (spans ++ pending) s.tail s.genId

/-- The region from `start` on has been reserved after `spans`. -/
def Granted (sbi : SbInfo) (head : Nat) (genId : UInt16) (spans : List Span) (len : Nat)
    (r : Option (UInt16 × Nat)) (s : Image) : Prop :=
  ∃ g start, r = some (g, start) ∧ s.head = head ∧
    Layout sbi head genId (spans ++ [⟨start, len, g⟩]) s.tail s.genId

section

variable {sbi : SbInfo} {head fuel len : Nat} {genId : UInt16} {spans : List Span} {s : Image}

/-- One turn through `again` that ends below the end of the journal. -/
theorem safe_reserve_of_lt (hsize : sbi.jsize ≤ 2 ^ 31) (hhead : s.head = head)
    (hl : Layout sbi head genId spans s.tail s.genId)
    (havail : 64 * len ≤ availSize sbi head s.tail) (hend : s.tail + 64 * len < sbi.jsize) :
    (reserve sbi (64 * len) (fuel + 1) head s.tail).Safe (AgreeOn {.header})
      (fun t t' => AgreeOn {.header}ᶜ t t' ∧ LaidOut sbi head genId spans t')
      (Granted sbi head genId spans len) s := by
  have hnext := hl.reserve havail hend
  rw [reserve_eq havail, Nat.mod_eq_of_lt (by omega)]
  intro t ht
  dsimp only
  rw [if_neg (by omega)]
  intro u hu
  obtain ⟨-, -, g3⟩ := ht.header rfl
  obtain ⟨h1, h2, h3⟩ := (ht.trans hu).header rfl
  refine ⟨⟨⟨fun _ _ => rfl, fun _ _ => rfl, fun hh => absurd rfl hh⟩, h1.symm.trans hhead,
    [⟨s.tail, len, s.genId⟩], ?_⟩, fun v hv => ⟨t.genId, s.tail, rfl, ?_⟩⟩
  · exact h3 ▸ hnext
  · obtain ⟨k1, k2, k3⟩ := hv.header rfl
    refine ⟨by rw [← k1, ← hhead, h1]; rfl, ?_⟩
    rw [← k2, ← k3, ← g3]
    exact h3 ▸ hnext

/-- A reservation that fits appends its region to the layout. -/
theorem safe_reserve (hsize : sbi.jsize ≤ 2 ^ 31) (hlt : head < sbi.jsize)
    (hhead : s.head = head) (hl : Layout sbi head genId spans s.tail s.genId)
    (havail : 64 * len ≤ availSize sbi head s.tail)
    (havail' : sbi.jsize ≤ s.tail + 64 * len → 64 * len ≤ availSize sbi head 0) :
    (reserve sbi (64 * len) (fuel + 2) head s.tail).Safe (AgreeOn {.header})
      (fun t t' => AgreeOn {.header}ᶜ t t' ∧ LaidOut sbi head genId spans t')
      (Granted sbi head genId spans len) s := by
  by_cases hend : s.tail + 64 * len < sbi.jsize
  · exact safe_reserve_of_lt hsize hhead hl havail hend
  · have htail := hl.tail_lt hlt
    have hlen : 64 * len < sbi.jsize := by
      have := havail' (by omega)
      rw [availSize] at this
      split at this <;> omega
    have hwrap := hl.wrap havail hlt (by omega)
    rw [reserve_eq havail, Nat.mod_eq_of_lt (by omega)]
    intro t ht
    dsimp only
    rw [if_pos (by omega)]
    intro u hu
    obtain ⟨h1, h2, h3⟩ := (ht.trans hu).header rfl
    rw [h3] at hwrap
    refine ⟨⟨⟨fun _ _ => rfl, fun _ _ => rfl, fun hh => absurd rfl hh⟩, h1.symm.trans hhead, [],
      by rw [List.append_nil]; exact hwrap⟩, ?_⟩
    exact safe_reserve_of_lt (s := { u with tail := 0, genId := nextGenId u.genId }) hsize
      (h1.symm.trans hhead) hwrap (havail' (by omega)) (by dsimp only; omega)

end

/-- `pmfs_new_transaction` when the request fits. -/
theorem safe_pmfsNewTransaction {sbi : SbInfo} {head fuel max : Nat} {genId : UInt16}
    {tid : UInt32} {spans : List Span} {s : Image} (hsize : sbi.jsize ≤ 2 ^ 31)
    (hlt : head < sbi.jsize) (hhead : s.head = head)
    (hl : Layout sbi head genId spans s.tail s.genId) (hfit : Fits sbi s max) (hfuel : 2 ≤ fuel) :
    (pmfsNewTransaction sbi fuel tid max).Safe (AgreeOn {.header})
      (fun t t' => AgreeOn {.header}ᶜ t t' ∧ LaidOut sbi head genId spans t')
      (fun r t => ∃ trans, r = some trans ∧ trans.numUsed = 0 ∧
        trans.numEntries ≤ reqSize max / 64 ∧ trans.numEntries < 2 ^ 16 ∧ t.head = head ∧
        Layout sbi head genId (spans ++ [⟨trans.start, reqSize max / 64, trans.genId⟩])
          t.tail t.genId) s := by
  obtain ⟨fuel, rfl⟩ : ∃ f, fuel = f + 2 := ⟨fuel - 2, by omega⟩
  have hreq : 64 * (reqSize max / 64) = reqSize max := by
    unfold reqSize
    omega
  have hnum : (max + 1) % 2 ^ 16 ≤ reqSize max / 64 := by
    unfold reqSize
    omega
  intro t ht
  obtain ⟨h1, h2, h3⟩ := ht.header rfl
  obtain ⟨hfit₁, hfit₂⟩ := hfit
  rw [← hreq, hhead, h2] at hfit₁ hfit₂
  rw [h2, h3] at hl
  have hres : (reserve sbi (64 * (reqSize max / 64)) (fuel + 2) head t.tail).Safe _ _ _ t :=
    safe_reserve hsize hlt (h1.symm.trans hhead) hl hfit₁ hfit₂
  rw [hreq, ← hhead, h1] at hres
  rw [← hhead, h1]
  refine Prog.Safe.bind AgreeOn.refl hres ?_
  rintro _ u ⟨g, start, rfl, hu, hul⟩ v hv
  obtain ⟨k1, k2, k3⟩ := hv.header rfl
  exact ⟨_, rfl, rfl, hnum, Nat.mod_lt _ (by omega), by omega, k2 ▸ k3 ▸ hul⟩

end Wpmfs.Journal
