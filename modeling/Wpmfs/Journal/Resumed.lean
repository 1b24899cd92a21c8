import Wpmfs.Journal.CrashRecovery
import Wpmfs.Journal.Restorable
import Wpmfs.Journal.Stale

/-!
# Runs whose recovery is interrupted

The journal that a cut-off run of transactions leaves is one that recovery may be interrupted on:
its regions undo different bytes, and no entry is of a later generation than the record says.
-/

namespace Wpmfs.Journal

open Persist UndoLog

/-! ## The generations of the entries -/

/-- The entries keep their generation ids or get some of `gens`. -/
def Marks (gens : Set UInt16) (s t : Image) : Prop :=
  ∀ le, (t.area le).genId = (s.area le).genId ∨ (t.area le).genId ∈ gens

/-- A call that marks entries with `gens` only. -/
abbrev MarksOnly {α : Type} (gens : Set UInt16) (p : JProg α) : Prop :=
  p.Always (Marks gens) fun _ => True

section

variable {gens : Set UInt16} {sbi : SbInfo} {trans : Transaction} {le addr size : Nat}
  {type : UInt8}

theorem Marks.refl (s : Image) : Marks gens s s := fun _ => .inl rfl

theorem marksOnly_setField {f : Image → Field} (hf : ∀ s v, f s = .genId v → v ∈ gens) :
    MarksOnly gens (setField le f) := by
  refine ⟨fun s le' => ?_, trivial⟩
  simp only [apply_entry]
  by_cases h : le' = le
  · subst h
    rw [Function.update_self]
    cases hfs : f s with
    | genId v => exact .inr (hf s v hfs)
    | _ => exact .inl rfl
  · rw [Function.update_of_ne h]
    exact .inl rfl

theorem MarksOnly.bind {α β : Type} {p : JProg α} {f : α → JProg β} (hp : MarksOnly gens p)
    (hf : ∀ a, MarksOnly gens (f a)) : MarksOnly gens (p >>= f) :=
  Prog.Always.bind hp (fun a _ => hf a) fun _ _ => trivial

theorem MarksOnly.when {c : Prop} [Decidable c] {p : JProg Unit} (hp : MarksOnly gens p) :
    MarksOnly gens (.when c p) := by
  unfold Prog.when
  split
  · exact hp
  · trivial

theorem marksOnly_addLogentryBody (hg : trans.genId ∈ gens) (num i : Nat) :
    MarksOnly gens (addLogentryBody trans addr size type num i) := by
  have hplain : ∀ {f : Image → Field}, (∀ s v, f s ≠ .genId v) → MarksOnly gens
      (setField (trans.le (trans.numUsed + i)) f) :=
    fun hf => marksOnly_setField fun s v h => absurd h (hf s v)
  unfold addLogentryBody
  refine MarksOnly.bind (hplain (by simp)) fun _ => ?_
  refine MarksOnly.bind (hplain (by simp)) fun _ => ?_
  refine MarksOnly.bind (hplain (by simp)) fun _ => ?_
  refine MarksOnly.bind (Prog.Always.forRange trivial fun k => hplain (by simp)) fun _ => ?_
  refine MarksOnly.bind (hplain (by simp)) fun _ => ?_
  refine MarksOnly.bind (MarksOnly.when (hplain (by simp))) fun _ => ?_
  refine MarksOnly.bind (MarksOnly.when (hplain (by simp))) fun _ => ?_
  refine marksOnly_setField fun s v h => ?_
  cases h
  exact hg

theorem marksOnly_pmfsAddLogentry (hg : trans.genId ∈ gens) :
    MarksOnly gens (pmfsAddLogentry trans addr size type) := by
  unfold pmfsAddLogentry
  dsimp only
  split
  · trivial
  · exact MarksOnly.bind (Prog.Always.forRange trivial fun i => marksOnly_addLogentryBody hg _ i)
      fun _ => trivial

theorem marksOnly_pmfsAbortTransaction (h0 : 0 ∈ gens) (hg : trans.genId ∈ gens) :
    MarksOnly gens (pmfsAbortTransaction sbi trans) := by
  refine MarksOnly.bind ?_ fun _ => marksOnly_pmfsAddLogentry hg
  refine ((always_pmfsUndoTransaction sbi trans).relax fun s t h le => ?_).mono fun _ _ => trivial
  refine (h.2.2.2 le).imp_right fun hz => ?_
  rw [hz]
  exact h0

end

variable {sbi : SbInfo} {init : Image} {s s' : System} {gens : Set UInt16} {i : Nat} {tx : Tx}

/-- The entries of the area, and those that calls still write, are of the generations `gens`. -/
structure Marked (sbi : SbInfo) (gens : Set UInt16) (s : System) : Prop where
  area : ∀ le < sbi.jsize, 64 ∣ le → (s.image.area le).genId ∈ gens
  calls : ∀ tx ∈ s.txs, MarksOnly gens tx.call

theorem Marked.set (h : Marked sbi gens s) {new : Tx} {t : Image} (hnew : MarksOnly gens new.call)
    (ht : Marks gens s.image t) : Marked sbi gens { s with image := t, txs := s.txs.set i new } := by
  refine ⟨fun le hle hd => ?_, fun x hx => ?_⟩
  · rcases ht le with he | hm
    · rw [he]
      exact h.area le hle hd
    · exact hm
  · rcases List.mem_or_eq_of_mem_set hx with hx | rfl
    · exact h.calls x hx
    · exact hnew

/-- A reservation leaves the area alone. -/
theorem Inv.reserve_area (hinv : Inv sbi init s) {len : Nat}
    {p : JProg (Option Transaction)} (hlock : s.lock = some (len, p)) (le : Nat) :
    ((p.next s.image).1.area le) = s.image.area le := by
  obtain ⟨-, hcase⟩ := (hinv.locked len p hlock).next AgreeOn.refl
  rcases hcase with he | ⟨hst, -⟩
  · rw [he]
  · exact (hst.entry le (by simp)).symm

/-- Every step marks entries with the generations of the run. -/
theorem Marked.step (h : Marked sbi gens s) (hinv : Inv sbi init s) (h0 : 0 ∈ gens)
    (hg : init.genId ∈ gens) (hg' : nextGenId init.genId ∈ gens) (hstep : Step sbi s s') :
    Marked sbi gens s' := by
  have htrans : ∀ {i : Nat} {tx : Tx} {trans : Transaction}, s.txs[i]? = some tx →
      tx.mode = .running → tx.call = .ret (some trans) → trans.genId ∈ gens := by
    intro i tx trans htx hmode hcall
    obtain ⟨hh, -, -⟩ := hinv.idle htx hmode hcall
    obtain ⟨-, pending, hl⟩ := hinv.layout
    have hmem := hl.genId_mem
      (List.mem_append_left _ (List.mem_map_of_mem (List.mem_of_getElem? htx)))
    have hspan : trans.genId = tx.span.genId := hh.genId
    rw [hspan]
    rcases hmem with he | he
    · rw [he]
      exact hg
    · rw [Set.mem_singleton_iff.1 he]
      exact hg'
  cases hstep with
  | begin => exact ⟨h.area, h.calls⟩
  | reserve hlock hn _ =>
    refine ⟨fun le hle hd => ?_, h.calls⟩
    have hsame := hinv.reserve_area hlock le
    rw [hn] at hsame
    rw [hsame]
    exact h.area le hle hd
  | reserved hlock hn =>
    refine ⟨fun le hle hd => ?_, fun x hx => ?_⟩
    · have hsame := hinv.reserve_area hlock le
      rw [hn] at hsame
      rw [hsame]
      exact h.area le hle hd
    · rcases List.mem_append.1 hx with hx | hx
      · exact h.calls x hx
      · rw [List.mem_singleton.1 hx]
        trivial
  | log addr size htx hmode hcall =>
    exact h.set (marksOnly_pmfsAddLogentry (htrans htx hmode hcall)) (Marks.refl _)
  | store => exact ⟨h.area, h.calls⟩
  | commit htx hmode hcall =>
    exact h.set (marksOnly_pmfsAddLogentry (htrans htx hmode hcall)) (Marks.refl _)
  | abort htx hmode hcall =>
    exact h.set (marksOnly_pmfsAbortTransaction h0 (htrans htx hmode hcall)) (Marks.refl _)
  | act htx hn =>
    have hnext := (h.calls _ (List.mem_of_getElem? htx)).next Marks.refl s.image
    rw [hn] at hnext
    exact h.set hnext.2 hnext.1

theorem Reachable.marked (hrun : Reachable sbi init s) (hfresh : Fresh sbi init)
    (h0 : 0 ∈ gens) (hg : init.genId ∈ gens) (hg' : nextGenId init.genId ∈ gens)
    (hinit : ∀ le < sbi.jsize, 64 ∣ le → (init.area le).genId ∈ gens) : Marked sbi gens s := by
  obtain ⟨tid, hrun⟩ := hrun
  induction hrun with
  | refl => exact ⟨hinit, by simp [System.init]⟩
  | tail hrun hstep ih => exact ih.step (Reachable.inv hfresh ⟨tid, hrun⟩) h0 hg hg' hstep

/-! ## What the run leaves -/

/-- An entry of a transaction carries its generation, or none of the run's. -/
theorem Inv.entry_genId (hinv : Inv sbi init s) (h : s.txs[i]? = some tx) {k : Nat}
    (hk : k < tx.numEntries) :
    (s.image.area (tx.span.start + 64 * k)).genId = tx.span.genId ∨
      (s.image.area (tx.span.start + 64 * k)).genId ∉
        ({init.genId, nextGenId init.genId} : Set UInt16) := by
  have hentries : ∀ {u fin}, (s.owned init.genId i tx).Entries u fin s.image →
      (s.image.area (tx.span.start + 64 * k)).genId = tx.span.genId ∨
        (s.image.area (tx.span.start + 64 * k)).genId ∉
          ({init.genId, nextGenId init.genId} : Set UInt16) := by
    intro u fin he
    by_cases hku : k < u
    · exact .inl (he.gen k hku)
    · exact .inr (he.stale k (by omega) hk)
  have hout := (hinv.tx i tx h).outcome
  cases hmode : tx.mode with
  | running =>
    rw [hmode] at hout
    obtain ⟨u, hu⟩ := hout
    exact hentries hu.toEntries
  | committing =>
    rw [hmode] at hout
    rcases hout with ⟨u, hu⟩ | ⟨u, hu⟩
    · exact hentries hu.toEntries
    · exact hentries hu.toEntries
  | aborting =>
    rw [hmode] at hout
    rcases hout with ⟨u, hu⟩ | ⟨u, hu⟩
    · exact hentries hu.toEntries
    · exact hentries hu.toEntries

/-- Where no region of the next generation lies, all entries are of the first one or older. -/
theorem Marked.aged (h : Marked sbi {g | g ≤ nextGenId init.genId} s) (hinv : Inv sbi init s)
    (hg : init.genId ≠ maxGenId) {a b : Nat} (hb : b ≤ sbi.jsize)
    (hnone : ∀ tx ∈ s.txs, tx.span.genId = nextGenId init.genId → ∀ k < tx.numEntries,
      a ≤ tx.span.start + 64 * k → tx.span.start + 64 * k < b → False) :
    Aged s.image.area init.genId a b := by
  intro le h1 h2 hd
  have hle : (s.image.area le).genId ≤ nextGenId init.genId := h.area le (by omega) hd
  have hne : (s.image.area le).genId ≠ nextGenId init.genId := by
    intro he
    refine hinv.stale le (by omega) hd (fun tx htx k hk hat => ?_) (.inr he)
    obtain ⟨i, hi⟩ := List.mem_iff_getElem?.1 htx
    rcases hinv.entry_genId hi hk with hown | hnot
    · rw [← hat, he] at hown
      exact hnone tx htx hown.symm k hk (by omega) (by omega)
    · rw [← hat] at hnot
      exact hnot (.inr he)
  have hnext := toNat_nextGenId hg
  have hne' : (s.image.area le).genId.toNat ≠ (nextGenId init.genId).toNat :=
    fun h => hne (UInt16.toNat_inj.1 h)
  rw [UInt16.le_iff_toNat_le] at hle ⊢
  omega

theorem notMem_bytes {i j a : Nat} (hij : i ≠ j) (hi : a ∈ s.bytes i) : a ∉ s.bytes j := by
  intro hj
  rcases lt_or_gt_of_ne hij with hlt | hlt
  · exact hi.2 j hlt hj.1
  · exact hj.2 i hlt hi.1

section

variable {spans pending : List Span} {span : Nat → Span} {region : Nat → Region}

/-- The regions of the run. -/
theorem Inv.exists_region (hinv : Inv sbi init s) (hfresh : Fresh sbi init)
    (hl : Layout sbi init.head init.genId (s.txs.map Tx.span ++ pending) s.image.tail
      s.image.genId) (hspans : s.txs.map Tx.span ++ pending = spans) :
    ∃ (span : Nat → Span) (region : Nat → Region),
      spans = (List.range spans.length).map span ∧
      ∀ i < spans.length, RegionOf sbi s i (span i) (region i) := by
  subst hspans
  have hreg : ∀ i, ∃ r, ∀ x, (s.txs.map Tx.span ++ pending)[i]? = some x → RegionOf sbi s i x r := by
    intro i
    cases hx : (s.txs.map Tx.span ++ pending)[i]? with
    | none => exact ⟨⟨0, 0, 0, false⟩, by simp⟩
    | some x =>
      obtain ⟨r, hr⟩ := hinv.regionOf hfresh hl hx
      refine ⟨r, fun y hy => ?_⟩
      cases hy
      exact hr
  choose region hregion using hreg
  refine ⟨_, region, eq_map_range _ ⟨0, 0, 0⟩, fun i hi => hregion i _ ?_⟩
  rw [List.getElem?_eq_getElem hi, Option.getD_some]

theorem chain_regions {l : List Nat} {genId : UInt16} {a b : Nat}
    (hp : Pass genId (l.map span) a b) (hr : ∀ i ∈ l, RegionOf sbi s i (span i) (region i)) :
    Chain Region.start Region.len (l.map region) a b ∧
      (∀ r ∈ l.map region, r.Valid sbi genId s.image.area) ∧
      (l.map region).map (Region.log sbi genId s.image.area) =
        l.map fun i => (region i).log sbi (span i).genId s.image.area := by
  have hgen : ∀ i ∈ l, (span i).genId = genId := fun i hi => hp.gen _ (List.mem_map_of_mem hi)
  refine ⟨?_, fun r hrm => ?_, ?_⟩
  · exact chain_map.2 ((chain_map.1 hp.chain).congr fun i hi => ⟨(hr i hi).start, (hr i hi).len⟩)
  · obtain ⟨i, hi, rfl⟩ := List.mem_map.1 hrm
    rw [← hgen i hi]
    exact (hr i hi).valid
  · rw [List.map_map]
    refine List.map_congr_left fun i hi => ?_
    rw [hgen i hi]
    rfl

/-- The journal of a run is one that recovery may be interrupted on, unless an entry of the largest
generation is in it. -/
theorem Inv.recoverable (hinv : Inv sbi init s) (hfresh : Fresh sbi init)
    (hm : Marked sbi {g | g ≤ nextGenId init.genId} s) (hg : init.genId ≠ maxGenId)
    (hg' : nextGenId init.genId ≠ maxGenId) :
    ∃ older newer, Recoverable sbi s.image older newer := by
  obtain ⟨hhead, pending, hl⟩ := hinv.layout
  have hmem : ∀ tx ∈ s.txs, tx.span ∈ s.txs.map Tx.span ++ pending := fun tx htx =>
    List.mem_append_left _ (List.mem_map_of_mem htx)
  have htail := hl.tail_lt hfresh.head_lt
  have hgne : init.genId ≠ nextGenId init.genId := UInt16.ne_of_lt (lt_nextGenId hg)
  obtain ⟨span, region, hrange, hregion⟩ := hinv.exists_region hfresh hl rfl
  generalize hspans : s.txs.map Tx.span ++ pending = spans at *
  have hshape : 64 ∣ s.image.tail → s.image.genId ≠ 0 → Shape sbi s.image := fun hd hg =>
    ⟨hfresh.dvd_size, hfresh.size_le, hhead ▸ hfresh.dvd_head, hd, hhead ▸ hfresh.head_lt, htail, hg⟩
  have hapart : ∀ l : List Nat, l = List.range spans.length →
      (l.map fun i => (region i).log sbi (span i).genId s.image.area).Pairwise Apart := by
    rintro l rfl
    refine List.pairwise_map.2 (List.pairwise_lt_range.imp_of_mem fun {i j} hi hj hij => ?_)
    exact fun a ha ha' => notMem_bytes hij.ne ((hregion i (List.mem_range.1 hi)).dom ha)
      ((hregion j (List.mem_range.1 hj)).dom ha')
  generalize ht : s.image.tail = tail at *
  generalize hgen : s.image.genId = current at *
  cases hl with
  | straight hp _ =>
    rw [hrange] at hp
    obtain ⟨hchain, hvalid, hlogs⟩ := chain_regions hp fun i hi => hregion i (List.mem_range.1 hi)
    have hgens : ∀ tx ∈ s.txs, tx.span.genId = init.genId := fun tx htx => by
      refine hp.gen _ ?_
      rw [← hrange]
      exact hmem tx htx
    refine ⟨[], (List.range spans.length).map region,
      hshape (hp.chain.dvd_end hfresh.dvd_head) hfresh.genId_ne, ?_, by simp, ?_, ?_⟩
    · refine .straight ?_ ?_ ?_ ?_
      · rw [hhead, ht]
        exact hp.chain.le
      · rw [hhead, ht]
        exact hchain
      · rw [hgen]
        refine hm.aged hinv hg (by omega) fun tx htx he => ?_
        rw [hgens tx htx] at he
        exact absurd he hgne
      · rw [hgen]
        exact fun h => absurd h hg
    · rw [hgen]
      exact hvalid
    · rw [logsOf, hgen, hlogs, List.map_nil, List.nil_append]
      exact hapart _ rfl
  | @wrapped spans₁ spans₂ stop _ hp₁ hstop hp₂ htail =>
    obtain ⟨l₁, l₂, hsplit, hs₁, hs₂⟩ := List.map_eq_append_iff.1 hrange.symm
    have hlt : ∀ i ∈ l₁ ++ l₂, i < (spans₁ ++ spans₂).length := fun i hi => by
      rw [← hsplit] at hi
      exact List.mem_range.1 hi
    rw [← hs₁] at hp₁
    rw [← hs₂] at hp₂
    obtain ⟨hchain₁, hvalid₁, hlogs₁⟩ := chain_regions hp₁ fun i hi =>
      hregion i (hlt i (List.mem_append_left _ hi))
    obtain ⟨hchain₂, hvalid₂, hlogs₂⟩ := chain_regions hp₂ fun i hi =>
      hregion i (hlt i (List.mem_append_right _ hi))
    have hprev : prevGenId s.image.genId = init.genId := by
      rw [hgen, prevGenId_nextGenId hfresh.genId_ne]
    have hpass : ∀ tx ∈ s.txs, (∃ i ∈ l₁, span i = tx.span) ∨ ∃ i ∈ l₂, span i = tx.span := by
      intro tx htx
      have hin := hmem tx htx
      rw [hrange, hsplit, List.map_append, List.mem_append] at hin
      exact hin.imp List.mem_map.1 List.mem_map.1
    refine ⟨l₁.map region, l₂.map region, hshape (hp₂.chain.dvd_end (Nat.dvd_zero _))
      (nextGenId_ne_zero _), ?_, ?_, ?_, ?_⟩
    · refine .wrapped ?_ ?_ hstop ?_ ?_ ?_ ?_ ?_ ?_
      · rwa [ht, hhead]
      · rw [hhead]
        exact hchain₁
      · rw [hprev]
        intro le h1 h2 hd he
        refine hinv.stale le h2 hd (fun tx htx k hk hat => ?_) (.inl he)
        have hnum := (hinv.numEntries tx htx).1
        have hle := hp₁.chain.le
        rcases hpass tx htx with ⟨i, hi, hx⟩ | ⟨i, hi, hx⟩
        · have := hp₁.chain.bounds (List.mem_map_of_mem hi)
          rw [hx] at this
          omega
        · have := hp₂.chain.bounds (List.mem_map_of_mem hi)
          rw [hx] at this
          omega
      · rw [ht]
        exact hchain₂
      · rw [hprev]
        refine hm.aged hinv hg le_rfl fun tx htx he k hk h1 _ => ?_
        have hnum := (hinv.numEntries tx htx).1
        rcases hpass tx htx with ⟨i, hi, hx⟩ | ⟨i, hi, hx⟩
        · have := hp₁.gen _ (List.mem_map_of_mem hi)
          rw [hx, he] at this
          exact hgne this.symm
        · have := hp₂.chain.bounds (List.mem_map_of_mem hi)
          rw [hx] at this
          omega
      · rw [ht, hgen]
        exact fun le _ hle hd => hm.area le (by omega) hd
      · rw [hprev]
        exact fun h => absurd h hg
      · rw [hgen]
        exact fun h => absurd h hg'
    · rw [hprev]
      exact hvalid₁
    · rw [hgen]
      exact hvalid₂
    · rw [logsOf, hprev, hgen, hlogs₁, hlogs₂, ← List.map_append]
      exact hapart _ hsplit.symm

end

end Wpmfs.Journal
