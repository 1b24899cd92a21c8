import Wpmfs.Journal.Atomicity
import Mathlib.Algebra.Order.Ring.Int
import Mathlib.Algebra.Order.Ring.Nat
import Mathlib.Data.Nat.Find
import Mathlib.Tactic.IntervalCases

/-!
# Recovery after a crash of a run

Every image a run leaves is a journal of regions, finished or not, that recovery walks back
over. It undoes exactly the unfinished ones, each of which takes its own bytes back.
-/

namespace Wpmfs.Journal

open Persist UndoLog

namespace Owned

variable {o : Owned} {sbi : SbInfo} {s : Image} {u : Nat} {post : Nat → UInt8}

/-- A valid commit record stands at the end of the written entries. -/
theorem Entries.finish_of_commit {fin : Nat → Bool} (h : o.Entries u fin s)
    (hg : o.genId ∈ o.gens) {i : Nat} (hi : i < o.len)
    (hgen : (s.area (o.start + 64 * i)).genId = o.genId)
    (hc : (s.area (o.start + 64 * i)).type &&& leCommit ≠ 0) : i < u ∧ fin i = true := by
  have hiu : i < u := by
    by_contra hui
    exact h.stale i (by omega) hi (hgen ▸ hg)
  refine ⟨hiu, ?_⟩
  rw [← h.isFinish i hiu, LogEntry.isFinish]
  simp [hc]

end Owned

section

variable {sbi : SbInfo} {init : Image} {s : System} {i : Nat} {tx : Tx}

/-- An unfinished transaction has no valid commit record. -/
theorem not_commitValid (hu : ∃ u, (s.owned init.genId i tx).Unfinished sbi u s.image)
    (hg : tx.span.genId ∈ ({init.genId, nextGenId init.genId} : Set UInt16)) :
    ¬tx.CommitValid s.image := by
  rintro ⟨k, hk, hgen, hc⟩
  obtain ⟨u, hu⟩ := hu
  exact absurd (hu.toEntries.finish_of_commit hg hk hgen hc).2 (by simp)

/-- A finished transaction has a valid commit record if it was committed. -/
theorem commitValid_iff {committed : Bool} {post : Nat → UInt8} {u : Nat}
    (hf : (s.owned init.genId i tx).Finished committed post u s.image)
    (hg : tx.span.genId ∈ ({init.genId, nextGenId init.genId} : Set UInt16)) :
    tx.CommitValid s.image ↔ committed = true := by
  have hc := hf.commit
  have hpos := hf.pos
  constructor
  · rintro ⟨k, hk, hgen, hck⟩
    have hlast := (hf.toEntries.finish_of_commit hg hk hgen hck).2
    rw [decide_eq_true_iff] at hlast
    rw [← hc, show u - 1 = k by omega]
    simpa [System.owned] using hck
  · intro hcom
    rw [hcom] at hc
    have hle := hf.le
    exact ⟨u - 1, by simp only [System.owned] at hle; omega, hf.gen _ (by omega),
      by simpa [System.owned] using hc⟩

open Classical in
/-- What transaction `i` leaves in the bytes it owns when recovery is over. -/
noncomputable def Tx.recovered (tx : Tx) (s : Image) : Nat → UInt8 :=
  if tx.CommitValid s then tx.post else tx.pre

/-- The region of a run's layout at position `i`, as recovery finds it. -/
structure RegionOf (sbi : SbInfo) (s : System) (i : Nat) (x : Span) (r : Region) : Prop where
  start : r.start = x.start
  len : r.len = x.len
  valid : r.Valid sbi x.genId s.image.area
  dom : dom (r.log sbi x.genId s.image.area) ⊆ s.bytes i
  undo : ∀ tx, s.txs[i]? = some tx → ∀ a ∈ s.bytes i,
    undo (r.log sbi x.genId s.image.area) s.image.mem a = tx.recovered s.image a

section

variable {pending : List Span} {x : Span}

/-- A slot of region `i` beyond the entries of its transaction. -/
theorem Inv.stale_of_le (hinv : Inv sbi init s) (hfresh : Fresh sbi init)
    (hl : Layout sbi init.head init.genId (s.txs.map Tx.span ++ pending) s.image.tail
      s.image.genId) (hx : (s.txs.map Tx.span ++ pending)[i]? = some x) {k : Nat} (hk : k < x.len)
    (hown : ∀ tx, s.txs[i]? = some tx → tx.numEntries ≤ k) :
    (s.image.area (x.start + 64 * k)).genId ≠ x.genId := by
  have hmem := List.mem_of_getElem? hx
  have hbound := hl.bounds hfresh.head_lt hmem
  have hdvd := hl.dvd hfresh.dvd_head hmem
  have hstale := hinv.stale (x.start + 64 * k) (by omega) (by omega) ?_
  · exact fun he => hstale (he ▸ hl.genId_mem hmem)
  intro tx htx m hm hc
  obtain ⟨j, hj⟩ := List.mem_iff_getElem?.1 htx
  by_cases hji : j = i
  · subst hji
    have := hown tx hj
    have hspan : x = tx.span := by
      rw [List.getElem?_append_left (by simpa using (List.getElem?_eq_some_iff.1 hj).1)] at hx
      simpa [hj] using hx.symm
    rw [hspan] at hc
    omega
  · have hj' : (s.txs.map Tx.span ++ pending)[j]? = some tx.span := by
      rw [List.getElem?_append_left (by simpa using (List.getElem?_eq_some_iff.1 hj).1)]
      simp [hj]
    obtain ⟨hi₁, hi₂⟩ := List.getElem?_eq_some_iff.1 hx
    obtain ⟨hj₁, hj₂⟩ := List.getElem?_eq_some_iff.1 hj'
    have hp := List.pairwise_iff_getElem.1 hl.pairwise
    have hap : tx.span.Apart x := by
      rw [← hi₂, ← hj₂]
      rcases lt_or_gt_of_ne hji with hlt | hlt
      · exact hp j i hj₁ hi₁ hlt
      · exact (hp i j hi₁ hj₁ hlt).symm
    have hlen := (hinv.numEntries tx htx).1
    rcases hap with hap | hap <;> omega

/-- Every region of the layout is one that recovery can deal with. -/
theorem Inv.regionOf (hinv : Inv sbi init s) (hfresh : Fresh sbi init)
    (hl : Layout sbi init.head init.genId (s.txs.map Tx.span ++ pending) s.image.tail
      s.image.genId) (hx : (s.txs.map Tx.span ++ pending)[i]? = some x) :
    ∃ r, RegionOf sbi s i x r := by
  cases htx : s.txs[i]? with
  | none =>
    refine ⟨⟨x.start, x.len, 0, false⟩, rfl, rfl, ⟨⟨by simp, by simp, by simp, fun k _ hk => ?_,
      by simp, by simp⟩, by simp⟩, by simp [Region.log], by simp [htx]⟩
    exact hinv.stale_of_le hfresh hl hx hk (by simp [htx])
  | some tx =>
    have hspan : x = tx.span := by
      rw [List.getElem?_append_left (by simpa using (List.getElem?_eq_some_iff.1 htx).1)] at hx
      simpa [htx] using hx.symm
    have hg := hl.genId_mem (List.mem_of_getElem? hx)
    obtain ⟨hnum, hnum'⟩ := hinv.numEntries tx (List.mem_of_getElem? htx)
    have hstale : ∀ u, (∀ k, u ≤ k → k < tx.numEntries →
        (s.image.area (x.start + 64 * k)).genId ∉ ({init.genId, nextGenId init.genId} : Set UInt16)) →
        ∀ k, u ≤ k → k < x.len → (s.image.area (x.start + 64 * k)).genId ≠ x.genId := by
      intro u hu k huk hk
      by_cases hkn : k < tx.numEntries
      · exact fun he => hu k huk hkn (he ▸ hg)
      · refine hinv.stale_of_le hfresh hl hx hk fun tx' htx' => ?_
        rw [htx] at htx'
        cases htx'
        omega
    subst hspan
    -- an unfinished transaction is undone
    have hunf : (∃ u, (s.owned init.genId i tx).Unfinished sbi u s.image) →
        ∃ r, RegionOf sbi s i tx.span r := by
      rintro ⟨u, hu⟩
      have hle : u ≤ tx.numEntries := hu.le
      refine ⟨⟨tx.span.start, tx.span.len, u, false⟩, rfl, rfl, ⟨⟨hle.trans hnum, by dsimp only; omega,
        hu.gen, hstale u hu.stale, hu.isStart, fun k hk => ?_⟩, fun _ => hu.mapped⟩, hu.dom, ?_⟩
      · exact (hu.isFinish k hk).trans (by simp)
      · intro tx' htx' a ha
        rw [htx] at htx'
        cases htx'
        rw [Tx.recovered, if_neg (not_commitValid ⟨u, hu⟩ hg)]
        exact hu.restores a ha
    -- a finished one is left as it is
    have hfin : ∀ committed post, (∃ u, (s.owned init.genId i tx).Finished committed post u s.image) →
        post = (if committed then tx.post else tx.pre) → ∃ r, RegionOf sbi s i tx.span r := by
      rintro committed post ⟨u, hu⟩ hpost
      have hle : u ≤ tx.numEntries := hu.le
      refine ⟨⟨tx.span.start, tx.span.len, u, true⟩, rfl, rfl, ⟨⟨hle.trans hnum, by dsimp only; omega,
        hu.gen, hstale u hu.stale, hu.isStart, fun k hk => ?_⟩, by simp⟩, by simp [Region.log], ?_⟩
      · exact (hu.isFinish k hk).trans (by simp)
      · intro tx' htx' a ha
        rw [htx] at htx'
        cases htx'
        have hm := hu.mem a ha
        rw [Region.log, if_pos rfl, undo_nil, hm, hpost, Tx.recovered]
        simp only [commitValid_iff hu hg]
    have hout := (hinv.tx i tx htx).outcome
    cases hmode : tx.mode with
    | running =>
      rw [hmode] at hout
      exact hunf hout
    | committing =>
      rw [hmode] at hout
      exact hout.elim hunf fun hf => hfin true _ hf rfl
    | aborting =>
      rw [hmode] at hout
      exact hout.elim hunf fun hf => hfin false _ hf rfl

/-- Regions that follow each other are a stretch the backward scan passes. -/
theorem scanned_pass {l : List Nat} {span : Nat → Span} {region : Nat → Region} {genId : UInt16}
    {head a b : Nat} {area : Nat → LogEntry} (hp : Pass genId (l.map span) a b)
    (hr : ∀ i ∈ l, RegionOf sbi s i (span i) (region i)) (hhead : head ≤ a ∨ b ≤ head)
    (hsize : b ≤ sbi.jsize) (harea : ∀ le, a ≤ le → area le = s.image.area le) :
    Scanned sbi head genId area a b
      (l.flatMap fun i => (region i).log sbi (span i).genId s.image.area) := by
  have hgen : ∀ i ∈ l, (span i).genId = genId := fun i hi => hp.gen _ (List.mem_map_of_mem hi)
  have hbounds : ∀ i ∈ l, a ≤ (span i).start ∧ (span i).start + 64 * (span i).len ≤ b :=
    fun i hi => hp.chain.bounds (List.mem_map_of_mem hi)
  have hsame : ∀ i ∈ l, ∀ k < (region i).len,
      area ((region i).start + 64 * k) = s.image.area ((region i).start + 64 * k) := by
    intro i hi k _
    refine harea _ ?_
    rw [(hr i hi).start]
    have := (hbounds i hi).1
    omega
  have hchain : Chain Region.start Region.len (l.map region) a b :=
    chain_map.2 ((chain_map.1 hp.chain).congr fun i hi => ⟨(hr i hi).start, (hr i hi).len⟩)
  have hvalid : ∀ i ∈ l, (region i).Valid sbi genId area ∧
      (region i).log sbi genId area = (region i).log sbi (span i).genId s.image.area := by
    intro i hi
    rw [← hgen i hi]
    exact (hr i hi).valid.congr (hsame i hi)
  have hscan : Scanned sbi head genId area a b
      ([] ++ (l.map region).flatMap (Region.log sbi genId area)) := by
    refine Scanned.nil.chain hchain (fun r hrm => ?_) hhead fun r hrm => ?_
    · obtain ⟨i, hi, rfl⟩ := List.mem_map.1 hrm
      exact (hvalid i hi).1
    · obtain ⟨i, hi, rfl⟩ := List.mem_map.1 hrm
      have hused := (hvalid i hi).1.used_le
      have hb := (hbounds i hi).2
      rw [(hr i hi).len] at hused
      unfold SbInfo.slots
      omega
  rw [List.nil_append, List.flatMap_map] at hscan
  rwa [List.flatMap_congr fun i hi => (hvalid i hi).2] at hscan

end

/-- The positions of a list. -/
theorem eq_map_range {α : Type} (l : List α) (d : α) :
    l = (List.range l.length).map fun i => l[i]?.getD d := by
  refine List.ext_getElem (by simp) fun i h₁ h₂ => ?_
  simp [h₁]

/-- Recovery undoes the regions of the layout that are unfinished, and nothing else. -/
theorem Inv.exec_recover (hinv : Inv sbi init s) (hfresh : Fresh sbi init) :
    ∃ (n : Nat) (log : Nat → List (Patch Nat UInt8)) (t : Image),
      (pmfsRecoverJournal sbi).exec s.image = (t, .ok ()) ∧ s.txs.length ≤ n ∧
      t.mem = undo ((List.range n).flatMap log) s.image.mem ∧
      ∀ i < n, dom (log i) ⊆ s.bytes i ∧ ∀ tx, s.txs[i]? = some tx → ∀ a ∈ s.bytes i,
        undo (log i) s.image.mem a = tx.recovered s.image a := by
  obtain ⟨hhead, pending, hl⟩ := hinv.layout
  have hreg : ∀ i, ∃ r, ∀ x, (s.txs.map Tx.span ++ pending)[i]? = some x →
      RegionOf sbi s i x r := by
    intro i
    cases hx : (s.txs.map Tx.span ++ pending)[i]? with
    | none => exact ⟨⟨0, 0, 0, false⟩, by simp⟩
    | some x =>
      obtain ⟨r, hr⟩ := hinv.regionOf hfresh hl hx
      refine ⟨r, fun y hy => ?_⟩
      cases hy
      exact hr
  choose region hregion using hreg
  have hlen : s.txs.length ≤ (s.txs.map Tx.span ++ pending).length := by simp
  generalize hsp : s.txs.map Tx.span ++ pending = spans at hl hregion hlen
  let span : Nat → Span := fun i => spans[i]?.getD ⟨0, 0, 0⟩
  have hspan : ∀ i < spans.length, RegionOf sbi s i (span i) (region i) := fun i hi => by
    refine hregion i (span i) ?_
    simp [span, hi]
  have hrange := eq_map_range spans ⟨0, 0, 0⟩
  have hsem : ∀ i < spans.length, dom ((region i).log sbi (span i).genId s.image.area) ⊆ s.bytes i ∧
      ∀ tx, s.txs[i]? = some tx → ∀ a ∈ s.bytes i,
        undo ((region i).log sbi (span i).genId s.image.area) s.image.mem a =
          tx.recovered s.image a :=
    fun i hi => ⟨(hspan i hi).dom, (hspan i hi).undo⟩
  refine ⟨spans.length, fun i => (region i).log sbi (span i).genId s.image.area, ?_⟩
  have hmem : ∀ tx ∈ s.txs, tx.span ∈ spans := fun tx htx =>
    hsp ▸ List.mem_append_left _ (List.mem_map_of_mem htx)
  generalize ht : s.image.tail = tail at hl
  generalize hg : s.image.genId = current at hl
  cases hl with
  | straight hp htail =>
    rw [hrange] at hp
    have hscan := scanned_pass hp (fun i hi => hspan i (List.mem_range.1 hi)) (.inl (le_refl _))
      htail.le (fun le _ => rfl)
    rw [← ht, ← hg, ← hhead] at hscan
    obtain ⟨t, he, hm⟩ := exec_pmfsRecoverJournal hscan (by omega)
    exact ⟨t, he, hlen, hm, hsem⟩
  | @wrapped spans₁ spans₂ stop _ hp₁ hstop hp₂ htail =>
    obtain ⟨l₁, l₂, hl, hs₁, hs₂⟩ := List.map_eq_append_iff.1 hrange.symm
    have hlt : ∀ i ∈ l₁ ++ l₂, i < (spans₁ ++ spans₂).length := fun i hi => by
      rw [← hl] at hi
      exact List.mem_range.1 hi
    have hpm₁ : Pass _ (l₁.map span) _ _ := hs₁.symm ▸ hp₁
    have hpm₂ : Pass _ (l₂.map span) _ _ := hs₂.symm ▸ hp₂
    have hhs := hp₁.chain.le
    have hhlt := hfresh.head_lt
    have h₂ := scanned_pass hpm₂ (fun i hi => hspan i (hlt i (List.mem_append_right _ hi)))
      (.inr htail.le) (by omega) (fun le _ => rfl)
    have h₁ : ∀ area, (∀ le, s.image.head ≤ le → area le = s.image.area le) →
        Scanned sbi s.image.head (prevGenId s.image.genId) area s.image.head sbi.jsize
          (l₁.flatMap fun i => (region i).log sbi (span i).genId s.image.area) := by
      intro area harea
      rw [hhead] at harea
      have h := scanned_pass hpm₁ (fun i hi => hspan i (hlt i (List.mem_append_left _ hi)))
        (.inl (le_refl _)) hstop harea
      rw [hg, prevGenId_nextGenId hfresh.genId_ne, hhead]
      have hdvd := hp₁.chain.dvd_end hfresh.dvd_head
      have hdvd' := hfresh.dvd_size
      have hend : sbi.jsize = stop + 64 * ((sbi.jsize - stop) / 64) := by omega
      rw [hend]
      -- the slots between the last region and the end of the area
      refine h.unusedRun fun k hk hc => ?_
      rw [harea _ (by omega)] at hc
      refine hinv.stale (stop + 64 * k) (by omega) (by omega) (fun tx htx m hm he => ?_) (.inl hc)
      have hnum := (hinv.numEntries tx htx).1
      rcases List.mem_append.1 (hmem tx htx) with hx | hx
      · have := hp₁.chain.bounds hx
        omega
      · have := hp₂.chain.bounds hx
        omega
    rw [← ht, ← hg, ← hhead] at h₂
    obtain ⟨t, he, hm⟩ := exec_pmfsRecoverJournal_wrapped (by omega) (by omega) h₂ h₁
    refine ⟨t, he, hlen, ?_, hsem⟩
    rw [hm, ← undo_append, ← List.flatMap_append, ← hl]

/-- What a transaction that has ended left in the bytes it logged. -/
def Tx.final (tx : Tx) : Nat → UInt8 :=
  match tx.mode with
  | .committing => tx.post
  | _ => tx.pre

/-- A transaction that logs a byte finds it as the last transaction that logged it left it. -/
def Inherits (s : System) : Prop :=
  ∀ (i j : Nat) (tx tx' : Tx) (a : Nat), i < j → s.txs[i]? = some tx → s.txs[j]? = some tx' →
    a ∈ tx.logged → a ∈ tx'.logged → (∀ k, i < k → k < j → a ∉ s.logged k) → tx'.pre a = tx.final a

theorem Inv.mem_final (hinv : Inv sbi init s) (h : s.txs[i]? = some tx) (hd : tx.Done) {a : Nat}
    (ha : a ∈ s.bytes i) : s.image.mem a = tx.final a := by
  obtain ⟨hmode, r, hr⟩ := hd
  have hret := (hr ▸ (hinv.tx i tx h).safe) s.image (AgreeOn.refl _)
  cases hm : tx.mode with
  | running => exact absurd hm hmode
  | committing =>
    rw [hm] at hret
    obtain ⟨u, hu⟩ := hret
    simpa [Tx.final, hm] using hu.mem a ha
  | aborting =>
    rw [hm] at hret
    obtain ⟨u, hu⟩ := hret
    rw [hu.mem a ha, Tx.final, hm]
    rfl

/-- Recovery leaves what a transaction that has ended left. -/
theorem Inv.recovered_of_done (hinv : Inv sbi init s) (h : s.txs[i]? = some tx) (hd : tx.Done)
    (hg : tx.span.genId ∈ ({init.genId, nextGenId init.genId} : Set UInt16)) :
    tx.recovered s.image = tx.final := by
  obtain ⟨hmode, r, hr⟩ := hd
  have hret := (hr ▸ (hinv.tx i tx h).safe) s.image (AgreeOn.refl _)
  cases hm : tx.mode with
  | running => exact absurd hm hmode
  | committing =>
    rw [hm] at hret
    obtain ⟨u, hu⟩ := hret
    rw [Tx.recovered, if_pos ((commitValid_iff hu hg).2 rfl), Tx.final, hm]
  | aborting =>
    rw [hm] at hret
    obtain ⟨u, hu⟩ := hret
    rw [Tx.recovered, if_neg fun hc => by simpa using (commitValid_iff hu hg).1 hc, Tx.final, hm]

/-- A change of one transaction that leaves what it logged. -/
theorem Inherits.set (hs : Inherits s) (hinv : Inv sbi init s) (h : s.txs[i]? = some tx)
    {new : Tx} {t : Image} (hl : new.logged = tx.logged) (hp : new.pre = tx.pre)
    (hf : new.final = tx.final ∨ ¬tx.Done) :
    Inherits { s with image := t, txs := s.txs.set i new } := by
  intro k j x y a hkj hx hy hax hay hbetween
  rw [getElem?_set_tx h] at hx hy
  simp only [logged_set h hl] at hbetween
  -- the earlier transaction as it was
  obtain ⟨x', hx', hlx, hfx⟩ : ∃ x', s.txs[k]? = some x' ∧ x.logged = x'.logged ∧
      (x.final = x'.final ∨ ¬x'.Done) := by
    split at hx
    · subst_vars
      cases hx
      exact ⟨tx, h, hl, hf⟩
    · exact ⟨x, hx, rfl, .inl rfl⟩
  obtain ⟨y', hy', hly, hpy⟩ : ∃ y', s.txs[j]? = some y' ∧ y.logged = y'.logged ∧
      y.pre = y'.pre := by
    split at hy
    · subst_vars
      cases hy
      exact ⟨tx, h, hl, hp⟩
    · exact ⟨y, hy, rfl, rfl⟩
  rw [hlx] at hax
  rw [hly] at hay
  rcases hfx with hfx | hnd
  · rw [hpy, hfx]
    exact hs k j x' y' a hkj hx' hy' hax hay hbetween
  · have hdis := hinv.apart k j x' hkj hx' hnd
    rw [logged_eq hy'] at hdis
    exact absurd hay (Set.disjoint_left.1 hdis hax)

/-- A new range is logged by no transaction that is still open. -/
theorem Inherits.log (hs : Inherits s) (hinv : Inv sbi init s) (h : s.txs[i]? = some tx)
    (hd : ¬tx.Done) {new : Tx} {range : Set Nat} (hmay : s.MayLog i tx range)
    (hl : new.logged = tx.logged ∪ range) (hp : new.pre = tx.pre) :
    Inherits { s with txs := s.txs.set i new } := by
  intro k j x y a hkj hx hy hax hay hbetween
  have hget := getElem?_set_tx h new
  have hold : ∀ m, k < m → m < j → a ∉ s.logged m := by
    intro m hkm hmj ham
    refine hbetween m hkm hmj ?_
    unfold System.logged
    rw [hget]
    split
    · subst_vars
      rw [Option.map_some, Option.getD_some, hl]
      exact .inl (logged_eq h ▸ ham)
    · exact ham
  rw [hget] at hx hy
  split at hx
  · -- nothing it has logged is logged by a later transaction
    subst_vars
    cases hx
    rw [if_neg (by omega)] at hy
    rw [hl] at hax
    rw [← logged_eq hy] at hay
    rcases hax with hax | hax
    · exact absurd hay (Set.disjoint_left.1 (hinv.apart _ j tx hkj h hd) hax)
    · exact absurd hay (Set.disjoint_left.1 (hmay j (by omega) (.inl hkj)) hax)
  split at hy
  · rename_i hji
    subst hji
    cases hy
    rw [hp]
    by_cases hat : a ∈ tx.logged
    · exact hs k j x tx a hkj hx h hax hat hold
    · have haR : a ∈ range := by
        rw [hl] at hay
        exact hay.resolve_left hat
      have hfree : ∀ m, m ≠ j → Overlap j tx m → a ∉ s.logged m :=
        fun m hm ho => Set.disjoint_left.1 (hmay m hm ho) haR
      have hxd : x.Done := by
        by_contra hxd
        exact hfree k (by omega) (.inr (hinv.rivals k j x tx hkj hx h hxd)) (logged_eq hx ▸ hax)
      rw [← hinv.pre j tx h hd a hat hfree]
      refine hinv.mem_final hx hxd ⟨logged_eq hx ▸ hax, fun m hkm => ?_⟩
      rcases lt_trichotomy m j with hlt | rfl | hlt
      · exact hold m hkm hlt
      · exact logged_eq h ▸ hat
      · exact hfree m (by omega) (.inl hlt)
  · exact hs k j x y a hkj hx hy hax hay hold

theorem Inherits.step (hs : Inherits s) (hinv : Inv sbi init s) {s' : System}
    (h : Step sbi s s') : Inherits s' := by
  cases h with
  | begin => exact hs
  | reserve => exact hs
  | store => exact hs
  | @reserved len p image trans =>
    intro k j x y a hkj hx hy hax hay hbetween
    have hnew : ∀ {m : Nat} {z : Tx}, (s.txs ++ [s.newTx image len trans])[m]? = some z →
        a ∈ z.logged → s.txs[m]? = some z := by
      intro m z hz haz
      rcases lt_or_ge m s.txs.length with hlt | hge
      · rwa [List.getElem?_append_left hlt] at hz
      · rw [List.getElem?_append_right hge] at hz
        rw [List.mem_singleton.1 (List.mem_of_getElem? hz)] at haz
        exact haz.elim
    refine hs k j x y a hkj (hnew hx hax) (hnew hy hay) hax hay fun m hkm hmj ham => ?_
    refine hbetween m hkm hmj ?_
    have hlt : m < s.txs.length := by
      have := (List.getElem?_eq_some_iff.1 (hnew hy hay)).1
      omega
    unfold System.logged
    rw [List.getElem?_append_left hlt]
    exact ham
  | log addr size h hmode hcall hfit haddr hmay =>
    exact hs.log hinv h (not_done_of_running hmode) hmay rfl rfl
  | commit h hmode hcall hfit =>
    exact hs.set hinv h rfl rfl (.inr (not_done_of_running hmode))
  | abort h hmode hcall hfit =>
    exact hs.set hinv h rfl rfl (.inr (not_done_of_running hmode))
  | act h hn => exact hs.set hinv h rfl rfl (.inl rfl)

theorem Reachable.inherits (hfresh : Fresh sbi init) (h : Reachable sbi init s) : Inherits s := by
  obtain ⟨tid, hrun⟩ := h
  induction hrun with
  | refl => simp [Inherits, System.init]
  | tail hrun hstep ih => exact ih.step (Reachable.inv hfresh ⟨tid, hrun⟩) hstep

/-- The last transactions that logged a byte count, the uncommitted ones not at all. -/
theorem Inv.recovered_of_later (hinv : Inv sbi init s) (hs : Inherits s) {t : Nat → UInt8}
    {a : Nat} (ht : ∀ i tx, s.txs[i]? = some tx → a ∈ s.bytes i → t a = tx.recovered s.image a) :
    ∀ n i tx, s.txs.length = i + n → s.txs[i]? = some tx → a ∈ tx.logged →
      (∀ j tx', i < j → s.txs[j]? = some tx' → a ∈ tx'.logged → ¬tx'.CommitValid s.image) →
      t a = tx.recovered s.image a := by
  intro n
  induction n using Nat.strong_induction_on with
  | _ n ih =>
    intro i tx hn h ha hlater
    by_cases hex : ∃ j, i < j ∧ a ∈ s.logged j
    · -- the next transaction that logged the byte found it as this one left it
      classical
      obtain ⟨hij, haj⟩ := Nat.find_spec hex
      have hmin : ∀ k, i < k → k < Nat.find hex → a ∉ s.logged k :=
        fun k hik hk hak => Nat.find_min hex hk ⟨hik, hak⟩
      generalize Nat.find hex = j at hij haj hmin
      cases hj : s.txs[j]? with
      | none => simp [System.logged, hj] at haj
      | some tx' =>
        rw [logged_eq hj] at haj
        have hjlt := (List.getElem?_eq_some_iff.1 hj).1
        have htx' := ih (s.txs.length - j) (by omega) j tx' (by omega) hj haj
          fun k x hk hx hax => hlater k x (by omega) hx hax
        rw [Tx.recovered, if_neg (hlater j tx' hij hj haj), hs i j tx tx' a hij h hj ha haj hmin]
          at htx'
        have hd : tx.Done := by
          by_contra hd
          exact Set.disjoint_left.1 (hinv.apart i j tx hij h hd) ha (logged_eq hj ▸ haj)
        obtain ⟨hhead, pending, hl⟩ := hinv.layout
        have hg := hl.genId_mem (List.mem_append_left _ (List.mem_map_of_mem (List.mem_of_getElem? h)))
        rw [htx', hinv.recovered_of_done h hd hg]
    · exact ht i tx h ⟨logged_eq h ▸ ha, fun j hij haj => hex ⟨j, hij, haj⟩⟩

/-- Whenever a run of transactions is cut off, recovery leaves, in every byte a transaction has
logged, what the transaction wrote if its commit record is valid, and else what it found; a
later transaction that committed over the byte comes first. Other bytes are unchanged. -/
theorem pmfsRecoverJournal_atomic (hfresh : Fresh sbi init) (hrun : Reachable sbi init s) :
    ∃ t, (pmfsRecoverJournal sbi).exec s.image = (t, .ok ()) ∧
      (∀ (i : Nat) (tx : Tx), s.txs[i]? = some tx → ∀ a ∈ tx.logged,
        (∀ (j : Nat) (tx' : Tx), i < j → s.txs[j]? = some tx' → a ∈ tx'.logged → ¬tx'.CommitValid s.image) →
        (tx.CommitValid s.image → t.mem a = tx.post a) ∧
        (¬tx.CommitValid s.image → t.mem a = tx.pre a)) ∧
      ∀ a, (∀ tx ∈ s.txs, a ∉ tx.logged) → t.mem a = init.mem a := by
  have hinv := hrun.inv hfresh
  obtain ⟨n, log, t, he, hn, ht, hlog⟩ := hinv.exec_recover hfresh
  -- the transactions are undone independently of each other
  have hbyte : ∀ (i : Nat) (tx : Tx) (a : Nat), s.txs[i]? = some tx → a ∈ s.bytes i →
      t.mem a = tx.recovered s.image a := by
    intro i tx a h ha
    have hi := (List.getElem?_eq_some_iff.1 h).1.trans_le hn
    rw [ht, undo_flatMap List.nodup_range (List.mem_range.2 hi) fun j hj hji haj => ?_]
    · exact (hlog i hi).2 tx h a ha
    · have hbj := (hlog j (List.mem_range.1 hj)).1 haj
      rcases lt_or_gt_of_ne hji with hlt | hlt
      · exact hbj.2 i hlt ha.1
      · exact ha.2 j hlt hbj.1
  refine ⟨t, he, fun i tx h a ha hlater => ?_, fun a ha => ?_⟩
  · have hrec := hinv.recovered_of_later (hrun.inherits hfresh) (t := t.mem)
      (fun i tx h ha => hbyte i tx a h ha) (s.txs.length - i) i tx
      (by have := (List.getElem?_eq_some_iff.1 h).1; omega) h ha hlater
    exact ⟨fun hc => by rw [hrec, Tx.recovered, if_pos hc],
      fun hc => by rw [hrec, Tx.recovered, if_neg hc]⟩
  · have hlogged : ∀ i, a ∉ s.logged i := by
      intro i hi
      unfold System.logged at hi
      cases h : s.txs[i]? with
      | none => simp [h] at hi
      | some tx => exact ha tx (List.mem_of_getElem? h) (by simpa [h] using hi)
    rw [ht, undo_of_notMem fun hd => ?_, hinv.untouched a hlogged]
    obtain ⟨i, hi, hai⟩ := mem_dom_flatMap.1 hd
    exact hlogged i ((hlog i (List.mem_range.1 hi)).1 hai).1

end

/-- The first transaction of `emptyImage`, with two entries. -/
def firstTrans : Transaction := ⟨1, 2, 0, 1, 0⟩

/-- `emptyImage` after `firstTrans` has logged byte 4096 and set it to 7. -/
def cutImage : Image :=
  apply ((pmfsAddLogentry firstTrans 4096 1 leData).exec { emptyImage with tail := 128 }).1
    (.mem 4096 7)

/-- The transaction `cutImage` is cut off in. -/
def cutTx : Tx where
  span := ⟨0, 2, 1⟩
  numEntries := 2
  mode := .running
  call := .ret (some { firstTrans with numUsed := 1 })
  logged := ∅ ∪ byteRange 4096 1
  pre := emptyImage.mem
  post := emptyImage.mem
  rivals := {j | ∃ tx, ([] : List Tx)[j]? = some tx ∧ ¬tx.Done}

theorem emptyImage_fresh : Fresh ⟨65536, false⟩ emptyImage where
  dvd_size := by decide
  size_le := by decide
  dvd_head := by decide
  head_lt := by decide
  tail_eq := rfl
  genId_ne := by decide
  area _ _ _ := show (0 : UInt16) ≠ 1 ∧ (0 : UInt16) ≠ nextGenId 1 by decide

theorem cutImage_reachable :
    Reachable ⟨65536, false⟩ emptyImage ⟨cutImage, 2, none, [cutTx]⟩ := by
  let reservedImage : Image := { emptyImage with tail := 128 }
  let s₀ : System := ⟨emptyImage, 2, none, []⟩
  let tx := s₀.newTx reservedImage 2 firstTrans
  let s₁ : System := ⟨reservedImage, 2, none, [tx]⟩
  let logging : Tx := { tx with logged := ∅ ∪ byteRange 4096 1 }
  have h₁ : Reachable ⟨65536, false⟩ emptyImage s₁ := ⟨1, .head
    (.begin 2 1 rfl (by unfold Fits; decide) (by decide)) (Step.reservation (s := s₀) rfl)⟩
  have h₂ : Reachable ⟨65536, false⟩ emptyImage
      ⟨((pmfsAddLogentry firstTrans 4096 1 leData).exec reservedImage).1, 2, none, [cutTx]⟩ := by
    refine (h₁.trans (.single (.log (i := 0) 4096 1 rfl rfl rfl (by decide) ?_ ?_))).trans
      (Step.call (s := { s₁ with txs := [logging] }) (i := 0) rfl rfl)
    · intro i hi
      interval_cases i
      rfl
    · intro j hj _
      have hnone : s₁.logged j = ∅ := by simp [System.logged, s₁, hj]
      rw [hnone]
      exact Set.disjoint_empty _
  refine h₂.trans (.single (.store (i := 0) 4096 7 rfl rfl rfl ?_))
  simp [cutTx, byteRange]

/-- Recovery of `cutImage` takes the byte back. -/
theorem pmfsRecoverJournal_atomic_cutImage : cutImage.mem 4096 = 7 ∧
    ∃ t, (pmfsRecoverJournal ⟨65536, false⟩).exec cutImage = (t, .ok ()) ∧ t.mem 4096 = 0 := by
  refine ⟨by decide, ?_⟩
  obtain ⟨t, ht, htx, -⟩ := pmfsRecoverJournal_atomic emptyImage_fresh cutImage_reachable
  have hlog := htx 0 cutTx rfl 4096 (by simp [cutTx, byteRange]) fun j tx' hj hget => by
    simp [Nat.ne_of_gt hj] at hget
  refine ⟨t, ht, hlog.2 ?_⟩
  rintro ⟨i, hi, hgen, hcommit⟩
  have hi : i < 2 := hi
  interval_cases i
  · exact hcommit (by decide)
  · exact absurd hgen (by decide)

end Wpmfs.Journal
