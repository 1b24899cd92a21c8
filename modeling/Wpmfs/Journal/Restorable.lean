import Mathlib.Data.List.Chain
import Wpmfs.Journal.Restart

/-!
# Recovery that is interrupted

`Restorable` describes a journal whose recovery may be cut off any number of times on its way to
the memory `m`. A journal of regions that undo different bytes is of this kind; in the largest
generation it takes a finished transaction before each one.
-/

namespace Wpmfs.Journal

open Persist UndoLog

variable {sbi : SbInfo} {genId g : UInt16} {m : Nat → UInt8} {area area' : Nat → LogEntry}
  {a b c x y n k head tail fuel : Nat} {log : List (Patch Nat UInt8)} {s t u : Image}

/-! ## Cut-offs of the whole recovery -/

theorem crash_pmfsForwardJournal (h : (pmfsForwardJournal sbi).CrashState s u) :
    (u = s ∨ s.genId = maxGenId ∧ ∃ k, u = { s with area := clearGenIds s.area s.tail k }) ∨
    (∃ hd, u = { s with
      genId := nextGenId s.genId
      head := hd
      area := passed s.genId s.area s.tail ((sbi.jsize - s.tail) / 64) } ∧
      (hd = s.head ∨ hd = s.tail)) := by
  have hlast : ∀ {v : Image}, (do
      Prog.store fun _ => .genId (nextGenId s.genId)
      Prog.store fun s => .head s.tail : JProg Unit).CrashState v u →
      u = v ∨ ∃ hd, u = { v with genId := nextGenId s.genId, head := hd } ∧
        (hd = v.head ∨ hd = v.tail) := by
    intro v hv
    rcases hv with rfl | rfl | rfl
    · exact .inl rfl
    · exact .inr ⟨v.head, rfl, .inl rfl⟩
    · exact .inr ⟨v.tail, rfl, .inr rfl⟩
  unfold pmfsForwardJournal at h
  simp only [Prog.CrashState] at h
  unfold passed
  by_cases hx : s.genId = maxGenId
  · rw [if_pos hx, Prog.crashState_bind] at h
    rw [if_pos hx]
    rcases h with h | ⟨v, _, he, h⟩
    · obtain ⟨k, -, hu⟩ := @crash_invalidate _ _ _ _ s.tail (fun _ _ => rfl) h
      exact .inl (.inr ⟨hx, k, hu⟩)
    · rw [exec_invalidateRemainingJournal] at he
      cases he
      rcases hlast h with rfl | h
      · exact .inl (.inr ⟨hx, _, rfl⟩)
      · exact .inr h
  · rw [if_neg hx] at h ⊢
    rcases hlast h with rfl | h
    · exact .inl (.inl rfl)
    · exact .inr h

/-- The slots hold no entry of a later generation. -/
def Aged (area : Nat → LogEntry) (genId : UInt16) (a b : Nat) : Prop :=
  ∀ le, a ≤ le → le < b → 64 ∣ le → (area le).genId ≤ genId

/-- A journal whose recovery may be interrupted on its way to the memory `m`. -/
inductive Restorable (sbi : SbInfo) (m : Nat → UInt8) (s : Image) : Prop where
  | done : s.head = s.tail → s.mem = m → Restorable sbi m s
  | straight {l : List (Patch Nat UInt8)} : s.head < s.tail →
      Replays sbi s.genId m s.area s.head s.tail l → (∀ x, x ∉ dom l → s.mem x = m x) →
      Aged s.area s.genId s.head s.tail → Restorable sbi m s
  | wrapped {l₁ l₂ : List (Patch Nat UInt8)} : s.tail < s.head →
      Replays sbi (prevGenId s.genId) m s.area s.head sbi.jsize l₁ →
      Replays sbi s.genId m s.area 0 s.tail l₂ →
      (∀ x, x ∉ dom l₁ → x ∉ dom l₂ → s.mem x = m x) →
      Aged s.area (prevGenId s.genId) s.head sbi.jsize → Aged s.area s.genId 0 s.tail →
      (s.genId = maxGenId →
        sbi.jsize ≤ 2 ^ 22 ∨ Unused s.area (prevGenId s.genId) s.head sbi.jsize) →
      Restorable sbi m s

/-- A stretch without entries of the generation. -/
theorem Unused.replays (h : Unused area genId a b) (hab : a ≤ b) (ha : 64 ∣ a) (hb : 64 ∣ b) :
    Replays sbi genId m area a b [] := by
  have hend : a + 64 * ((b - a) / 64) = b := by omega
  rw [← hend]
  exact Replays.nil.unusedRun fun i hi => h _ (by omega) (by omega) (by omega)

/-- The lower part of a stretch becomes invalid. -/
theorem Replays.clear_low (h : Replays sbi genId m area a b log) (hg : genId ≠ maxGenId)
    (hg0 : genId ≠ 0) (hslots : (b - a) / 64 ≤ sbi.slots) (hlt : (b - a) / 64 < 2 ^ 16)
    (hk : 0 < k) (hzero : ∀ i < k, (area' (a + 64 * i)).genId = 0)
    (hsame : ∀ le, a + 64 * k ≤ le → area' le = area le) :
    ∃ log', Replays sbi genId m area' a b log' ∧ dom log' ⊆ dom log := by
  have hclear : ∀ i < k, (area' (a + 64 * i)).genId ≠ genId := fun i hi => by
    rw [hzero i hi]
    exact Ne.symm hg0
  -- what is cut through has no start record any more
  have hcut : ∀ {y n : Nat}, a ≤ y → 64 ∣ y - a → 0 < n → y ≤ a + 64 * k →
      (y + 64 * n - a) / 64 < 2 ^ 16 → (y + 64 * n - a) / 64 ≤ sbi.slots →
      (area (y + 64 * (n - 1))).genId = genId →
      (∀ i < n, a + 64 * k ≤ y + 64 * i → (area (y + 64 * i)).genId = genId →
        (area (y + 64 * i)).isStart = false) →
      (∀ i, i + 1 < n → (area (y + 64 * i)).genId = genId →
        (area (y + 64 * i)).isFinish = false) →
      Replays sbi genId m area' a (y + 64 * n) [] := by
    intro y n hay hdvd hn hyk hlt' hslots' hgen hs hf
    obtain ⟨j, rfl⟩ : ∃ j, y = a + 64 * j := ⟨(y - a) / 64, by omega⟩
    have hend : a + 64 * j + 64 * n = a + 64 * (j + n) := by omega
    rw [hend]
    by_cases hall : j + n ≤ k
    · exact Replays.nil.unusedRun fun i hi => hclear i (by omega)
    have hentry : ∀ i, (area' (a + 64 * i)).genId = genId → k ≤ i ∧
        area' (a + 64 * i) = area (a + 64 * j + 64 * (i - j)) := by
      intro i hgen
      by_cases hik : i < k
      · exact absurd hgen (hclear i hik)
      · have hat : a + 64 * j + 64 * (i - j) = a + 64 * i := by omega
        rw [hat]
        exact ⟨by omega, hsame _ (by omega)⟩
    have hlast : area' (a + 64 * (j + n - 1)) = area (a + 64 * j + 64 * (n - 1)) := by
      have hat : a + 64 * j + 64 * (n - 1) = a + 64 * (j + n - 1) := by omega
      rw [hat]
      exact hsame _ (by omega)
    refine Replays.nil.rest (by omega) (by omega) (by omega) (fun i hi hgen => ?_)
      (fun i hi hgen => ?_) (by rwa [hlast]) (.inl rfl)
    · obtain ⟨hki, he⟩ := hentry i hgen
      rw [he] at hgen ⊢
      exact hs _ (by omega) (by omega) hgen
    · obtain ⟨hki, he⟩ := hentry i hgen
      rw [he] at hgen ⊢
      exact hf _ (by omega) hgen
  induction h with
  | nil => exact ⟨[], .nil, subset_rfl⟩
  | @unused b log hb hu ih =>
    have hle := hb.dvd
    obtain ⟨log', hlog, hdom⟩ := ih (by omega) (by omega)
    refine ⟨log', hlog.unused ?_, hdom⟩
    obtain ⟨j, rfl⟩ : ∃ j, b = a + 64 * j := ⟨(b - a) / 64, by omega⟩
    by_cases hjk : j < k
    · exact hclear j hjk
    · rwa [hsame _ (by omega)]
  | @region x n finished log hb hv hn hsl hundo hdet ih =>
    have hle := hb.dvd
    by_cases hxk : a + 64 * k ≤ x
    · obtain ⟨log', hlog, hdom⟩ := ih (by omega) (by omega)
      obtain ⟨hv', hrlog⟩ := hv.congr fun i hi => hsame (x + 64 * i) (by omega)
      rw [← hrlog] at hundo ⊢
      refine ⟨_, hlog.region hv' hn hsl hundo fun h => absurd h hg, fun z hz => ?_⟩
      rw [mem_dom_append] at hz ⊢
      exact hz.imp_left (@hdom z)
    · refine ⟨[], hcut hle.1 hle.2 hn (by omega) hlt hslots (hv.gen (n - 1) (by dsimp only; omega))
        (fun i hi hpos _ => ?_) (fun i hi _ => ?_), by simp⟩
      · rw [hv.isStart i hi]
        exact decide_eq_false (by omega)
      · have hne : i + 1 ≠ n := by omega
        rw [hv.isFinish i (by dsimp only; omega)]
        simp [hne]
  | @rest y n log hb hn hsl hn16 hs hf hgen hstops ih =>
    have hle := hb.dvd
    by_cases hyk : a + 64 * k < y
    · obtain ⟨log', hlog, hdom⟩ := ih (by omega) (by omega)
      have hentry : ∀ i, area' (y + 64 * i) = area (y + 64 * i) := fun i => hsame _ (by omega)
      refine ⟨log', hlog.rest hn hsl hn16 (fun i => ?_) (fun i => ?_) ?_ ?_, hdom⟩
      · rw [hentry]
        exact hs i
      · rw [hentry]
        exact hf i
      · rwa [hentry]
      · rw [hentry, Stops, hsame (y - 64) (by omega)]
        exact hstops
    · exact ⟨[], hcut hle.1 hle.2 hn (by omega) hlt hslots hgen (fun i hi _ => hs i hi) hf,
        by simp⟩

/-- The slots from `c` on become invalid one after the other. -/
theorem Replays.clear_upward (h : Replays sbi genId m area a sbi.jsize log) (hca : c < a)
    (halt : a < sbi.jsize) (ha : 64 ∣ a) (hc : 64 ∣ c) (hsize : 64 ∣ sbi.jsize)
    (hg : genId ≠ maxGenId) (hg0 : genId ≠ 0)
    (hlarge : sbi.jsize ≤ 2 ^ 22 ∨ Unused area genId a sbi.jsize) :
    ∃ log', Replays sbi genId m (clearGenIds area c k) a sbi.jsize log' := by
  by_cases hk : c + 64 * k ≤ a
  · exact ⟨log, h.congr fun le hle _ => clearGenIds_of_notMem fun i hi => by omega⟩
  rcases hlarge with hle | hunused
  · have hslots : (sbi.jsize - a) / 64 ≤ sbi.slots := by
      unfold SbInfo.slots
      omega
    have hlow : ∀ i < (c + 64 * k - a) / 64, (clearGenIds area c k (a + 64 * i)).genId = 0 := by
      intro i hi
      have hat : a + 64 * i = c + 64 * ((a + 64 * i - c) / 64) := by omega
      rw [hat]
      exact clearGenIds_of_lt (by omega)
    obtain ⟨log', hlog', -⟩ := h.clear_low hg hg0 hslots (by omega) (by omega) hlow
      fun le hle => clearGenIds_of_notMem fun i hi => by omega
    exact ⟨log', hlog'⟩
  · have hnone : Unused (clearGenIds area c k) genId a sbi.jsize := by
      intro le h1 h2 hd
      rcases clearGenIds_genId area c k le with he | he
      · rw [he]
        exact hunused le h1 h2 hd
      · rw [he]
        exact Ne.symm hg0
    exact ⟨[], hnone.replays halt.le ha hsize⟩

theorem toNat_nextGenId (h : genId ≠ maxGenId) : (nextGenId genId).toNat = genId.toNat + 1 := by
  have hlt : genId.toNat ≠ 65535 := fun he => h (UInt16.toNat_inj.1 he)
  have hbound := genId.toNat_lt
  have hnat : (genId + 1).toNat = genId.toNat + 1 := by
    rw [UInt16.toNat_add]
    exact Nat.mod_eq_of_lt (by simp; omega)
  have hne : genId + 1 ≠ 0 := fun he => by simp [he] at hnat
  rw [nextGenId, if_neg hne, hnat]

theorem lt_nextGenId (h : genId ≠ maxGenId) : genId < nextGenId genId := by
  rw [UInt16.lt_iff_toNat_lt, toNat_nextGenId h]
  omega

theorem prevGenId_lt (hg : genId ≠ 0) (h : prevGenId genId ≠ maxGenId) :
    prevGenId genId < genId := by
  have hlt := lt_nextGenId h
  rwa [nextGenId_prevGenId hg] at hlt

theorem prevGenId_ne_zero (g : UInt16) : prevGenId g ≠ 0 := by
  unfold prevGenId
  grind

theorem Aged.fades (h : Aged area genId a b)
    (hf : ∀ le, (area' le).genId = (area le).genId ∨ (area' le).genId = 0) :
    Aged area' genId a b := by
  intro le h1 h2 hd
  rcases hf le with he | he
  · rw [he]
    exact h le h1 h2 hd
  · rw [he]
    exact UInt16.zero_le

theorem Unused.fades (h : Unused area genId a b) (hg : genId ≠ 0)
    (hf : ∀ le, (area' le).genId = (area le).genId ∨ (area' le).genId = 0) :
    Unused area' genId a b := by
  intro le h1 h2 hd
  rcases hf le with he | he
  · rw [he]
    exact h le h1 h2 hd
  · rw [he]
    exact Ne.symm hg

/-- Where a generation is passed, no entry of it or of a later one is left, and none of the next
one is there. -/
theorem PassedBy.unused {E : Set Nat} (h : PassedBy sbi genId m E a b log s u) (ha : 64 ∣ a)
    (haged : Aged s.area genId a b) (hlt : genId ≠ maxGenId → genId < g) (hg0 : g ≠ 0) :
    Unused u.area g a b ∧ Aged u.area g a b := by
  have hzero : genId = maxGenId → ∀ le, a ≤ le → le < b → 64 ∣ le → (u.area le).genId = 0 := by
    intro hg le h1 h2 hd
    obtain ⟨i, rfl⟩ : ∃ i, le = a + 64 * i := ⟨(le - a) / 64, by omega⟩
    exact h.clear hg i h2
  by_cases hg : genId = maxGenId
  · refine ⟨fun le h1 h2 hd => ?_, fun le h1 h2 hd => ?_⟩
    · rw [hzero hg le h1 h2 hd]
      exact Ne.symm hg0
    · rw [hzero hg le h1 h2 hd]
      exact UInt16.zero_le
  · have hle : ∀ le, a ≤ le → le < b → 64 ∣ le → (u.area le).genId < g := fun le h1 h2 hd => by
      rw [h.kept hg]
      exact UInt16.lt_of_le_of_lt (haged le h1 h2 hd) (hlt hg)
    exact ⟨fun le h1 h2 hd => UInt16.ne_of_lt (hle le h1 h2 hd),
      fun le h1 h2 hd => UInt16.le_of_lt (hle le h1 h2 hd)⟩

/-- Recovery is cut off in the loop, or after it. -/
theorem crash_pmfsRecoverJournal (hne : s.head ≠ s.tail)
    (hl : (recoverLoop sbi s.head (sbi.slots + 1) s.tail s.genId).exec s =
      (recoverLoop sbi s.head (fuel + 1) s.head genId).exec t)
    (hc : (pmfsRecoverJournal sbi).CrashState s u) :
    (recoverLoop sbi s.head (sbi.slots + 1) s.tail s.genId).CrashState s u ∨
      (pmfsForwardJournal sbi).CrashState t u := by
  have hend : recoverLoop sbi s.head (fuel + 1) s.head genId = .ret () := if_pos rfl
  rw [hend] at hl
  simp only [pmfsRecoverJournal, Prog.CrashState] at hc
  rw [if_neg hne] at hc
  simp only [pmfsRecoverUndoJournal, Prog.CrashState] at hc
  rw [Prog.crashState_bind] at hc
  rcases hc with hc | ⟨v, _, he, hc⟩
  · exact .inl hc
  · rw [hl] at he
    cases he
    exact .inr hc

theorem Shape.of_header (hs : Shape sbi s)
    (h : u.head = s.head ∧ u.tail = s.tail ∧ u.genId = s.genId) : Shape sbi u := by
  obtain ⟨hh, ht, hg⟩ := h
  exact ⟨hs.dvd_size, hs.size_le, hh ▸ hs.dvd_head, ht ▸ hs.dvd_tail, hh ▸ hs.head_lt,
    ht ▸ hs.tail_lt, hg ▸ hs.genId_ne⟩

theorem Shape.forwarded {hd : Nat} (hs : Shape sbi s) (h : hd = s.head ∨ hd = s.tail) :
    Shape sbi { s with genId := nextGenId s.genId, head := hd, area := area } := by
  rcases h with rfl | rfl
  · exact ⟨hs.dvd_size, hs.size_le, hs.dvd_head, hs.dvd_tail, hs.head_lt, hs.tail_lt,
      nextGenId_ne_zero _⟩
  · exact ⟨hs.dvd_size, hs.size_le, hs.dvd_tail, hs.dvd_tail, hs.tail_lt, hs.tail_lt,
      nextGenId_ne_zero _⟩

/-- What recovery does to a journal that has not wrapped, when it gets to its end or is cut off. -/
theorem recover_straight (hs : Shape sbi s) (hlt : s.head < s.tail)
    (hlog : Replays sbi s.genId m s.area s.head s.tail log)
    (hmem : ∀ x, x ∉ dom log → s.mem x = m x) (haged : Aged s.area s.genId s.head s.tail) :
    (∃ t, (pmfsRecoverJournal sbi).exec s = (t, .ok ()) ∧ t.mem = m) ∧
    ∀ u, (pmfsRecoverJournal sbi).CrashState s u → Shape sbi u ∧ Restorable sbi m u := by
  have htail := hs.tail_lt
  have hslots : (s.tail - s.head) / 64 ≤ sbi.slots := by
    unfold SbInfo.slots
    omega
  obtain ⟨fuel, t, he, hf, hpass, hcut⟩ := @Replays.recoverLoop _ _ _ _ _ _ _ _ ∅ hlog (.inr rfl)
    (.inl le_rfl) (sbi.slots + 1) s.tail s.genId s (fun _ _ => rfl) (by omega) (fun h => by omega)
    (fun _ => ⟨by omega, by rw [prevLogEntry_of_pos (by omega)]; have := hlog.dvd; omega,
      by rw [if_neg (by omega)]⟩) (fun x hx _ => hmem x hx)
  obtain ⟨fuel, rfl⟩ : ∃ f, fuel = f + 1 := ⟨fuel - 1, by omega⟩
  have hne : s.head ≠ s.tail := by omega
  have htm : t.mem = m := funext fun x => hpass.mem x (by simp)
  have hleft : ∀ {u : Image}, Cut sbi s.genId m ∅ s.head s.tail log s u →
      Shape sbi u ∧ Restorable sbi m u := by
    intro u hu
    refine ⟨hs.of_header hu.header, ?_⟩
    obtain ⟨hsame, -, hfades, -, log', hlog', -, hm⟩ := hu
    generalize hmm : u.mem = mem at hsame hm
    generalize haa : u.area = area at hsame hfades hlog'
    subst hsame
    exact .straight hlt hlog' (fun x hx => hm x hx (by simp)) (haged.fades hfades)
  refine ⟨?_, fun u hu => ?_⟩
  · obtain ⟨v, hv, hvm⟩ := exec_pmfsRecoverUndoJournal he
    refine ⟨v, ?_, hvm.trans htm⟩
    simp only [pmfsRecoverJournal, Prog.exec]
    rw [if_neg hne, hv]
  · rcases crash_pmfsRecoverJournal hne he hu with hu | hu
    · rcases hcut u hu with hu | hu
      · exact hleft hu
      · have hend : recoverLoop sbi s.head (fuel + 1) s.head s.genId = .ret () := if_pos rfl
        rw [hend] at hu
        exact (show u = t from hu) ▸ hleft hpass.toCut
    · obtain ⟨hth, htt, htg⟩ := hpass.header
      have hbelow : ∀ {k le}, le < s.tail → clearGenIds t.area s.tail k le = t.area le :=
        fun hle => clearGenIds_of_notMem fun i hi => by omega
      rcases crash_pmfsForwardJournal hu with (rfl | ⟨-, k, rfl⟩) | ⟨hd, rfl, hhd⟩
      · exact hleft hpass.toCut
      · -- only slots from the tail on are invalidated
        obtain ⟨log', hlog', -, hm⟩ := hpass.left
        refine ⟨hs.of_header hpass.header, ?_⟩
        rw [← hth, ← htt, ← htg] at hlog' haged
        refine .straight (by dsimp only; omega) (hlog'.congr fun le _ hl => ?_)
          (fun x hx => hm x hx (by simp)) fun le h1 h2 hd => ?_
        · rw [htt] at hl ⊢
          exact hbelow hl
        · have hle := haged.fades hpass.fades le h1 h2 hd
          dsimp only at h2 ⊢
          rw [htt] at h2 ⊢
          rwa [hbelow h2]
      · refine ⟨(hs.of_header hpass.header).forwarded hhd, ?_⟩
        rcases hhd with rfl | rfl
        · obtain ⟨hunused, hage⟩ := hpass.unused hs.dvd_head haged
            (fun hg => lt_nextGenId hg) (nextGenId_ne_zero s.genId)
          have harea : ∀ le < s.tail, passed t.genId t.area t.tail ((sbi.jsize - t.tail) / 64) le =
              t.area le := fun le hle => passed_of_notMem (.inl (by omega))
          refine @Restorable.straight _ _ _ [] (by dsimp only; omega) ?_ (fun x _ => congrFun htm x)
            fun le h1 h2 hd => ?_
          · dsimp only
            rw [hth, htt, htg] at *
            exact (hunused.replays hlt.le hs.dvd_head hs.dvd_tail).congr fun le _ hl => harea le hl
          · dsimp only at h1 h2 ⊢
            rw [hth] at h1
            rw [htt] at h2
            rw [harea le h2, htg]
            exact hage le h1 h2 hd
        · exact .done rfl htm

theorem restorable_wrapped {l₁ l₂ : List (Patch Nat UInt8)} (hh : u.head = b) (ht : u.tail = c)
    (hg : u.genId = g) (hlt : c < b) (h₁ : Replays sbi (prevGenId g) m u.area b sbi.jsize l₁)
    (h₂ : Replays sbi g m u.area 0 c l₂)
    (hmem : ∀ x, x ∉ dom l₁ → x ∉ dom l₂ → u.mem x = m x)
    (haged₁ : Aged u.area (prevGenId g) b sbi.jsize) (haged₂ : Aged u.area g 0 c)
    (hlarge : g = maxGenId → sbi.jsize ≤ 2 ^ 22 ∨ Unused u.area (prevGenId g) b sbi.jsize) :
    Restorable sbi m u := by
  subst hh ht hg
  exact .wrapped hlt h₁ h₂ hmem haged₁ haged₂ hlarge

/-- The same for a journal that has wrapped. -/
theorem recover_wrapped {l₁ l₂ : List (Patch Nat UInt8)} (hs : Shape sbi s) (hlt : s.tail < s.head)
    (h₁ : Replays sbi (prevGenId s.genId) m s.area s.head sbi.jsize l₁)
    (h₂ : Replays sbi s.genId m s.area 0 s.tail l₂)
    (hmem : ∀ x, x ∉ dom l₁ → x ∉ dom l₂ → s.mem x = m x)
    (haged₁ : Aged s.area (prevGenId s.genId) s.head sbi.jsize)
    (haged₂ : Aged s.area s.genId 0 s.tail)
    (hlarge : s.genId = maxGenId →
      sbi.jsize ≤ 2 ^ 22 ∨ Unused s.area (prevGenId s.genId) s.head sbi.jsize) :
    (∃ t, (pmfsRecoverJournal sbi).exec s = (t, .ok ()) ∧ t.mem = m) ∧
    ∀ u, (pmfsRecoverJournal sbi).CrashState s u → Shape sbi u ∧ Restorable sbi m u := by
  have hhead := hs.head_lt
  have hslots : s.tail / 64 + (sbi.jsize - s.head) / 64 ≤ sbi.slots := by
    unfold SbInfo.slots
    omega
  have hprev0 := prevGenId_ne_zero s.genId
  have hdvd₂ := h₂.dvd
  have hdvd₁ := h₁.dvd
  obtain ⟨fuel₂, t, he₂, hf₂, hpass₂, hcut₂⟩ := @Replays.recoverLoop _ _ _ _ _ _ s.head _ (dom l₁) h₂
    (.inl rfl) (.inr hlt.le) (sbi.slots + 1) s.tail s.genId s (fun _ _ => rfl) (by omega)
    (fun h => ⟨h.symm, rfl⟩)
    (fun _ => ⟨by omega, by rw [prevLogEntry_of_pos (by omega)]; omega,
      by rw [if_neg (by omega)]⟩) (fun x hx hx' => hmem x hx' hx)
  obtain ⟨hth, htt, htg⟩ := hpass₂.header
  have hold₁ : Replays sbi (prevGenId s.genId) m t.area s.head sbi.jsize l₁ :=
    h₁.congr fun le hle _ => hpass₂.outside le (.inr (by omega))
  obtain ⟨fuel, t', he₁, hf₁, hpass₁, hcut₁⟩ := @Replays.recoverLoop _ _ _ _ _ _ s.head _ ∅ hold₁
    (.inr rfl) (.inl le_rfl) fuel₂ 0 s.genId t (fun _ _ => rfl) (by omega) (fun h => by omega)
    (fun _ => ⟨by omega, by rw [prevLogEntry_zero]; omega, if_pos rfl⟩)
    (fun x hx _ => hpass₂.mem x hx)
  obtain ⟨fuel, rfl⟩ : ∃ f, fuel = f + 1 := ⟨fuel - 1, by omega⟩
  have hne : s.head ≠ s.tail := by omega
  have he := he₂.trans he₁
  have htm : t'.mem = m := funext fun x => hpass₁.mem x (by simp)
  have hleft₂ : ∀ {u : Image}, Cut sbi s.genId m (dom l₁) 0 s.tail l₂ s u →
      Shape sbi u ∧ Restorable sbi m u := by
    intro u hu
    refine ⟨hs.of_header hu.header, ?_⟩
    obtain ⟨hh, ht, hg⟩ := hu.header
    have hsame : ∀ le, s.head ≤ le → u.area le = s.area le := fun le hle =>
      hu.outside le (.inr (by omega))
    obtain ⟨log', hlog', -, hm⟩ := hu.left
    refine restorable_wrapped hh ht hg hlt (h₁.congr fun le hle _ => hsame le hle) hlog'
      (fun x hx hx' => hm x hx' hx) (haged₁.fades hu.fades) (haged₂.fades hu.fades) fun hx => ?_
    exact (hlarge hx).imp_right fun h => h.fades hprev0 hu.fades
  have hleft₁ : ∀ {u : Image}, Cut sbi (prevGenId s.genId) m ∅ s.head sbi.jsize l₁ t u →
      Shape sbi u ∧ Restorable sbi m u := by
    intro u hu
    refine ⟨(hs.of_header hpass₂.header).of_header hu.header, ?_⟩
    obtain ⟨hh, ht, hg⟩ := hu.header
    have hsame : ∀ le, le < s.head → u.area le = t.area le := fun le hle =>
      hu.outside le (.inl hle)
    obtain ⟨log', hlog', -, hm⟩ := hu.left
    obtain ⟨log₂, hlog₂, -, -⟩ := hpass₂.left
    refine restorable_wrapped (hh.trans hth) (ht.trans htt) (hg.trans htg) hlt hlog'
      (hlog₂.congr fun le _ hle => hsame le (by omega)) (fun x hx _ => hm x hx (by simp))
      ((haged₁.fades hpass₂.fades).fades hu.fades) ((haged₂.fades hpass₂.fades).fades hu.fades)
      fun hx => ?_
    exact (hlarge hx).imp_right fun h => (h.fades hprev0 hpass₂.fades).fades hprev0 hu.fades
  refine ⟨?_, fun u hu => ?_⟩
  · obtain ⟨v, hv, hvm⟩ := exec_pmfsRecoverUndoJournal he
    refine ⟨v, ?_, hvm.trans htm⟩
    simp only [pmfsRecoverJournal, Prog.exec]
    rw [if_neg hne, hv]
  · rcases crash_pmfsRecoverJournal hne he hu with hu | hu
    · rcases hcut₂ u hu with hu | hu
      · exact hleft₂ hu
      · rcases hcut₁ u hu with hu | hu
        · exact hleft₁ hu
        · have hend : recoverLoop sbi s.head (fuel + 1) s.head (prevGenId s.genId) = .ret () :=
            if_pos rfl
          rw [hend] at hu
          exact (show u = t' from hu) ▸ hleft₁ hpass₁.toCut
    · obtain ⟨hth', htt', htg'⟩ := hpass₁.header
      have hh : t'.head = s.head := hth'.trans hth
      have ht : t'.tail = s.tail := htt'.trans htt
      have hg : t'.genId = s.genId := htg'.trans htg
      have hshape := (hs.of_header hpass₂.header).of_header hpass₁.header
      have hage₁ := (haged₁.fades hpass₂.fades).fades hpass₁.fades
      have hage₂ := (haged₂.fades hpass₂.fades).fades hpass₁.fades
      have hbelow : ∀ le < s.tail, t'.area le = t.area le := fun le hle =>
        hpass₁.outside le (.inl (by omega))
      rcases crash_pmfsForwardJournal hu with (rfl | ⟨hx, k, rfl⟩) | ⟨hd, rfl, hhd⟩
      · exact hleft₁ hpass₁.toCut
      · -- the slots from the tail on are being invalidated, the older regions among them
        rw [ht]
        rw [hg] at hx
        have hfades := clearGenIds_genId t'.area s.tail k
        obtain ⟨log₂, hlog₂, -, -⟩ := hpass₂.left
        obtain ⟨log', hlog', -, -⟩ := hpass₁.left
        have hdvd := hs.dvd_size
        obtain ⟨log, hlog⟩ := hlog'.clear_upward hlt hhead hs.dvd_head hs.dvd_tail hs.dvd_size
          (by rw [hx]; decide) hprev0 ((hlarge hx).imp_right fun h =>
            (h.fades hprev0 hpass₂.fades).fades hprev0 hpass₁.fades)
        have hnew : ∀ le < s.tail, clearGenIds t'.area s.tail k le = t.area le := fun le hle =>
          (clearGenIds_of_notMem fun i hi => by omega).trans (hbelow le hle)
        refine ⟨hshape.of_header ⟨rfl, ht.symm, rfl⟩, ?_⟩
        exact restorable_wrapped hh rfl hg hlt hlog (hlog₂.congr fun le _ hle => hnew le hle)
          (fun x _ _ => congrFun htm x) (hage₁.fades hfades) (hage₂.fades hfades)
          fun _ => (hlarge hx).imp_right fun h =>
            ((h.fades hprev0 hpass₂.fades).fades hprev0 hpass₁.fades).fades hprev0 hfades
      · refine ⟨hshape.forwarded hhd, ?_⟩
        rcases hhd with rfl | rfl
        · obtain ⟨hu₂, ha₂⟩ := hpass₂.unused (by omega) haged₂ (fun h => lt_nextGenId h)
            (nextGenId_ne_zero s.genId)
          obtain ⟨hu₁, ha₁⟩ := hpass₁.unused hs.dvd_head (haged₁.fades hpass₂.fades)
            (fun h => prevGenId_lt hs.genId_ne h) hs.genId_ne
          have hpn := prevGenId_nextGenId hs.genId_ne
          rw [ht, hg]
          have hfades := passed_genId s.genId t'.area s.tail ((sbi.jsize - s.tail) / 64)
          have hnew : ∀ le < s.tail, passed s.genId t'.area s.tail ((sbi.jsize - s.tail) / 64) le =
              t.area le := fun le hle => (passed_of_notMem (.inl hle)).trans (hbelow le hle)
          have hu₁' := hu₁.fades hs.genId_ne hfades
          generalize passed s.genId t'.area s.tail ((sbi.jsize - s.tail) / 64) = area at *
          have hnil₁ := @Unused.replays sbi _ m _ _ _ hu₁' hhead.le hs.dvd_head hs.dvd_size
          have hnil₂ := ((@Unused.replays sbi _ m _ _ _ hu₂ (Nat.zero_le _) (by omega)
            hs.dvd_tail).congr fun le _ hle => hnew le hle)
          rw [← hpn] at hnil₁ hu₁' ha₁
          refine restorable_wrapped hh rfl rfl hlt hnil₁ hnil₂ (fun x _ _ => congrFun htm x)
            (ha₁.fades hfades) (fun le h1 h2 hd => ?_) fun _ => .inr hu₁'
          dsimp only
          rw [hnew le h2]
          exact ha₂ le h1 h2 hd
        · exact .done rfl htm

/-- A journal that recovery was interrupted on any number of times. -/
def Interrupted (sbi : SbInfo) : Image → Image → Prop :=
  Relation.ReflTransGen fun s u => (pmfsRecoverJournal sbi).CrashState s u

theorem Restorable.recover (hs : Shape sbi s) (h : Restorable sbi m s) :
    (∃ t, (pmfsRecoverJournal sbi).exec s = (t, .ok ()) ∧ t.mem = m) ∧
    ∀ u, (pmfsRecoverJournal sbi).CrashState s u → Shape sbi u ∧ Restorable sbi m u := by
  cases h with
  | done heq hm =>
    refine ⟨⟨s, ?_, hm⟩, fun u hu => ?_⟩
    · simp only [pmfsRecoverJournal, Prog.exec, if_pos heq]
    · simp only [pmfsRecoverJournal, Prog.CrashState, if_pos heq] at hu
      subst hu
      exact ⟨hs, .done heq hm⟩
  | straight hlt hlog hmem haged => exact recover_straight hs hlt hlog hmem haged
  | wrapped hlt h₁ h₂ hmem haged₁ haged₂ hlarge =>
    exact recover_wrapped hs hlt h₁ h₂ hmem haged₁ haged₂ hlarge

theorem Restorable.interrupted (hs : Shape sbi s) (h : Restorable sbi m s)
    (hu : Interrupted sbi s u) : Shape sbi u ∧ Restorable sbi m u := by
  induction hu with
  | refl => exact ⟨hs, h⟩
  | tail _ hc ih => exact (ih.2.recover ih.1).2 _ hc

/-! ## Journals of regions -/

/-- The transaction that the last entry of the region belongs to. -/
def Region.tid (area : Nat → LogEntry) (r : Region) : UInt32 :=
  (area (r.start + 64 * (r.used - 1))).transactionId

/-- The regions with a written entry. -/
def filled (rs : List Region) : List Region := rs.filter fun r => decide (0 < r.used)

/-- The entry before the start record of `r` finishes another transaction. -/
def Parts (area : Nat → LogEntry) (q r : Region) : Prop :=
  q.finished = true ∧ q.tid area ≠ r.tid area

/-- In the largest generation, where recovery invalidates what it has passed, the area has at most
`2 ^ 16` entries, and each start record follows the end of another transaction. -/
def Severed (sbi : SbInfo) (genId : UInt16) (area : Nat → LogEntry) (rs : List Region) : Prop :=
  genId = maxGenId → sbi.jsize ≤ 2 ^ 22 ∧ (filled rs).IsChain (Parts area)

/-- The entries between the head and the tail are those of the regions: `newer` of the current
generation and, in a wrapped journal, `older` of the one before. -/
inductive Holds (sbi : SbInfo) (s : Image) : (older newer : List Region) → Prop where
  | straight {newer : List Region} : s.head ≤ s.tail →
      Chain Region.start Region.len newer s.head s.tail → Aged s.area s.genId s.head s.tail →
      Severed sbi s.genId s.area newer → Holds sbi s [] newer
  | wrapped {older newer : List Region} {stop : Nat} : s.tail < s.head →
      Chain Region.start Region.len older s.head stop → stop ≤ sbi.jsize →
      Unused s.area (prevGenId s.genId) stop sbi.jsize →
      Chain Region.start Region.len newer 0 s.tail →
      Aged s.area (prevGenId s.genId) s.head sbi.jsize → Aged s.area s.genId 0 s.tail →
      Severed sbi (prevGenId s.genId) s.area older → Severed sbi s.genId s.area newer →
      Holds sbi s older newer

/-- What recovery undoes, a log for each region. -/
def logsOf (sbi : SbInfo) (s : Image) (older newer : List Region) : List (List (Patch Nat UInt8)) :=
  older.map (Region.log sbi (prevGenId s.genId) s.area) ++ newer.map (Region.log sbi s.genId s.area)

/-- A journal that recovery may be interrupted on: its regions undo different bytes. -/
structure Recoverable (sbi : SbInfo) (s : Image) (older newer : List Region) : Prop where
  shape : Shape sbi s
  holds : Holds sbi s older newer
  validOlder : ∀ r ∈ older, r.Valid sbi (prevGenId s.genId) s.area
  validNewer : ∀ r ∈ newer, r.Valid sbi s.genId s.area
  apart : (logsOf sbi s older newer).Pairwise Apart

section

variable {r : Region} {rs older newer : List Region}

theorem Region.Valid.trim (h : r.Valid sbi genId area) :
    (⟨r.start, r.used, r.used, r.finished⟩ : Region).Valid sbi genId area :=
  ⟨⟨le_rfl, h.used_lt, h.gen, fun i h1 h2 => absurd h2 (by dsimp only at h1 ⊢; omega), h.isStart,
    h.isFinish⟩, h.mapped⟩

/-- Above `a` the regions from `b` on follow `k` unused slots and, if there is any, an entry that
finishes another transaction. -/
structure Follows (genId : UInt16) (area : Nat → LogEntry) (a b k : Nat) (rs : List Region) :
    Prop where
  le : a + 64 * k ≤ b
  unused : ∀ i < k, (area (b - 64 * k + 64 * i)).genId ≠ genId
  stops : ∀ r ∈ (filled rs).head?, Stops genId area a (b - 64 * k) (r.tid area)
  parts : (filled rs).IsChain (Parts area)

theorem filled_cons_of_pos (h : 0 < r.used) : filled (r :: rs) = r :: filled rs := by
  simp [filled, h]

theorem filled_cons_of_zero (h : r.used = 0) : filled (r :: rs) = filled rs := by
  simp [filled, h]

/-- An empty region is passed over. -/
theorem Follows.empty (h : Follows genId area a r.start k (r :: rs)) (hv : r.Valid sbi genId area)
    (hz : r.used = 0) : Follows genId area a (r.start + 64 * r.len) (k + r.len) rs := by
  have hle := h.le
  have hat : r.start + 64 * r.len - 64 * (k + r.len) = r.start - 64 * k := by omega
  have hstops := h.stops
  have hsev := h.parts
  rw [filled_cons_of_zero hz] at hstops hsev
  refine ⟨by omega, fun i hi => ?_, fun q hq => ?_, hsev⟩
  · rw [hat]
    by_cases hik : i < k
    · exact h.unused i hik
    · have hslot : r.start - 64 * k + 64 * i = r.start + 64 * (i - k) := by omega
      rw [hslot]
      exact hv.stale (i - k) (by omega) (by omega)
  · rw [hat]
    exact hstops q hq

/-- Behind a region with entries. -/
theorem Follows.next (h : Follows genId area a r.start k (r :: rs)) (hv : r.Valid sbi genId area)
    (hpos : 0 < r.used) :
    Follows genId area a (r.start + 64 * r.len) (r.len - r.used) rs := by
  have hle := h.le
  have hused := hv.used_le
  have hat : r.start + 64 * r.len - 64 * (r.len - r.used) = r.start + 64 * r.used := by omega
  have hsev := h.parts
  rw [filled_cons_of_pos hpos, List.isChain_cons] at hsev
  refine ⟨by omega, fun i hi => ?_, fun q hq => ?_, hsev.2⟩
  · have hslot : r.start + 64 * r.used + 64 * i = r.start + 64 * (r.used + i) := by omega
    rw [hat, hslot]
    exact hv.stale (r.used + i) (by omega) (by omega)
  · obtain ⟨hfin, htid⟩ := hsev.1 q hq
    have hlast : r.start + 64 * r.used - 64 = r.start + 64 * (r.used - 1) := by omega
    have hone : r.used - 1 + 1 = r.used := by omega
    rw [hat]
    refine .inr ⟨by omega, ?_, ?_, ?_⟩
    · rw [hlast]
      exact hv.gen _ (by omega)
    · rw [hlast, hv.isFinish _ (by omega), hfin, hone]
      simp
    · rw [hlast]
      exact htid

/-- A stretch followed by a chain of regions. -/
theorem Replays.chain (h : Replays sbi genId m area a b log)
    (hc : Chain Region.start Region.len rs b c) (hv : ∀ r ∈ rs, r.Valid sbi genId area)
    (hundo : ∀ r ∈ rs, undo (r.log sbi genId area) m = m) (hsize : c - a ≤ sbi.jsize)
    (hmax : genId = maxGenId → (c - a) / 64 < 2 ^ 16 ∧ ∃ k, Follows genId area a b k rs) :
    Replays sbi genId m area a c (log ++ rs.flatMap (Region.log sbi genId area)) := by
  induction rs generalizing b log with
  | nil => simpa [show b = c from hc] using h
  | cons r rs ih =>
    obtain ⟨rfl, hc⟩ := hc
    have hle := hc.le
    have hax := h.dvd.1
    have hr := hv r List.mem_cons_self
    have hused := hr.used_le
    have hend : r.start + 64 * r.len = r.start + 64 * r.used + 64 * (r.len - r.used) := by omega
    have hone : Replays sbi genId m area a (r.start + 64 * r.len)
        (log ++ r.log sbi genId area) := by
      rw [hend]
      refine Replays.unusedRun ?_ fun i hi => ?_
      · rcases Nat.eq_zero_or_pos r.used with hz | hpos
        · have hlog : r.log sbi genId area = [] := by
            unfold Region.log
            rw [hz]
            split <;> rfl
          rwa [hz, hlog, List.append_nil]
        · refine h.region hr.trim hpos ?_ (hundo r List.mem_cons_self) fun hg => ?_
          · unfold SbInfo.slots
            omega
          · obtain ⟨hlt, k, hk⟩ := hmax hg
            have hkle := hk.le
            refine ⟨k, hk.le, by unfold SbInfo.slots; omega, by omega, hk.unused, ?_⟩
            exact hk.stops r (by simp [filled_cons_of_pos hpos])
      · have hslot : r.start + 64 * r.used + 64 * i = r.start + 64 * (r.used + i) := by omega
        rw [hslot]
        exact hr.stale (r.used + i) (by omega) (by omega)
    have hrest := ih hone hc (fun q hq => hv q (List.mem_cons_of_mem _ hq))
      (fun q hq => hundo q (List.mem_cons_of_mem _ hq)) fun hg => by
        obtain ⟨hlt, k, hk⟩ := hmax hg
        refine ⟨hlt, ?_⟩
        rcases Nat.eq_zero_or_pos r.used with hz | hpos
        · exact ⟨_, hk.empty hr hz⟩
        · exact ⟨_, hk.next hr hpos⟩
    simpa using hrest

theorem Replays.eq_nil (h : Replays sbi genId m area a b log) (hab : a = b) : log = [] := by
  cases h with
  | nil => rfl
  | unused h _ =>
    have := h.dvd
    omega
  | region h _ hn _ _ _ =>
    have := h.dvd
    omega
  | rest h hn _ _ _ _ _ _ =>
    have := h.dvd
    omega

/-- The regions of a stretch. -/
theorem replays_regions (hc : Chain Region.start Region.len rs a b)
    (hv : ∀ r ∈ rs, r.Valid sbi genId area)
    (hundo : ∀ r ∈ rs, undo (r.log sbi genId area) m = m) (hsize : b - a < sbi.jsize)
    (hmax : Severed sbi genId area rs) :
    Replays sbi genId m area a b (rs.flatMap (Region.log sbi genId area)) := by
  have h := Replays.nil.chain hc hv hundo (by omega) fun hg => by
    obtain ⟨hsz, hsev⟩ := hmax hg
    exact ⟨by omega, 0, by omega, by omega, fun r _ => .inl rfl, hsev⟩
  rwa [List.nil_append] at h

/-- A journal of regions is one that recovery may be interrupted on. -/
theorem Recoverable.restorable (h : Recoverable sbi s older newer) :
    Restorable sbi (undo (logsOf sbi s older newer).flatten s.mem) s := by
  have hhead := h.shape.head_lt
  have htail := h.shape.tail_lt
  have hundo₁ : ∀ r ∈ older, undo (r.log sbi (prevGenId s.genId) s.area)
      (undo (logsOf sbi s older newer).flatten s.mem) =
        undo (logsOf sbi s older newer).flatten s.mem := fun r hr =>
    undo_again h.apart (List.mem_append_left _ (List.mem_map_of_mem hr)) _
  have hundo₂ : ∀ r ∈ newer, undo (r.log sbi s.genId s.area)
      (undo (logsOf sbi s older newer).flatten s.mem) =
        undo (logsOf sbi s older newer).flatten s.mem := fun r hr =>
    undo_again h.apart (List.mem_append_right _ (List.mem_map_of_mem hr)) _
  have hflat : (logsOf sbi s older newer).flatten =
      older.flatMap (Region.log sbi (prevGenId s.genId) s.area) ++
        newer.flatMap (Region.log sbi s.genId s.area) := by
    rw [logsOf, List.flatten_append]
    rfl
  have hmem : ∀ x, x ∉ dom (logsOf sbi s older newer).flatten →
      s.mem x = undo (logsOf sbi s older newer).flatten s.mem x :=
    fun x hx => (undo_of_notMem hx).symm
  generalize undo (logsOf sbi s older newer).flatten s.mem = m at *
  rw [hflat] at hmem
  cases h.holds with
  | straight hle hc haged hsev =>
    rw [List.flatMap_nil, List.nil_append] at hmem
    have hlog := replays_regions hc h.validNewer hundo₂ (by omega) hsev
    rcases Nat.eq_or_lt_of_le hle with heq | hlt
    · refine .done heq (funext fun x => hmem x ?_)
      rw [hlog.eq_nil heq]
      simp
    · exact .straight hlt hlog hmem haged
  | @wrapped _ _ stop hlt hc₁ hstop hunused hc₂ haged₁ haged₂ hsev₁ hsev₂ =>
    have hlog₂ := replays_regions hc₂ h.validNewer hundo₂ (by omega) hsev₂
    have hlog₁ := replays_regions hc₁ h.validOlder hundo₁ (by omega) hsev₁
    -- the slots between the last older region and the end of the area
    have hdvd := hc₁.dvd_end h.shape.dvd_head
    have hdvd' := h.shape.dvd_size
    have hend : sbi.jsize = stop + 64 * ((sbi.jsize - stop) / 64) := by omega
    have hlog₁' := @Replays.unusedRun _ _ _ _ _ _ ((sbi.jsize - stop) / 64) _ hlog₁ fun i hi =>
      hunused _ (by omega) (by omega) (by omega)
    rw [← hend] at hlog₁'
    refine .wrapped hlt hlog₁' hlog₂ (fun x hx₁ hx₂ => hmem x ?_) haged₁ haged₂ fun hg =>
      .inl (hsev₂ hg).1
    rw [mem_dom_append]
    exact not_or.2 ⟨hx₁, hx₂⟩

end

/-- A transaction of the largest generation has logged byte 4096 and set it to 7. -/
def oldestImage : Image where
  head := 0
  tail := 64
  genId := maxGenId
  area := Function.update emptyImage.area 0 ⟨4096, 1, maxGenId, leStart, 1, fun _ => 0⟩
  mem := Function.update emptyImage.mem 4096 7

theorem oldestImage_recoverable :
    Recoverable ⟨128, false⟩ oldestImage [] [⟨0, 1, 1, false⟩] where
  shape := ⟨by decide, by decide, by decide, by decide, by decide, by decide, by decide⟩
  holds := by
    refine .straight (by decide) ⟨rfl, rfl⟩ (fun le _ _ _ => ?_) fun _ =>
      ⟨by decide, by simp [filled]⟩
    have hmax := (oldestImage.area le).genId.toNat_lt
    rw [UInt16.le_iff_toNat_le]
    exact Nat.le_of_lt_succ hmax
  validOlder := by simp
  validNewer r hr := by
    obtain rfl := List.mem_singleton.1 hr
    have hzero : ∀ {i : Nat}, i < 1 → i = 0 := by omega
    refine ⟨⟨le_rfl, by decide, fun i hi => ?_, fun i h1 h2 => by
      dsimp only at h1 h2
      omega, fun i hi => ?_,
      fun i hi => ?_⟩, fun _ i hi => ?_⟩
    · obtain rfl := hzero hi
      rfl
    · obtain rfl := hzero hi
      rfl
    · obtain rfl := hzero hi
      rfl
    · obtain rfl := hzero hi
      exact .inr rfl
  apart := by simp [logsOf]

/-- An unfinished transaction of the largest generation right before a committed one. -/
def adjoiningImage : Image where
  head := 0
  tail := 192
  genId := maxGenId
  area := Function.update (Function.update (Function.update emptyImage.area
    0 ⟨4096, 1, maxGenId, leStart, 1, fun _ => 0⟩)
    64 ⟨4097, 2, maxGenId, leStart, 1, fun _ => 0⟩)
    128 ⟨0, 2, maxGenId, leCommit, 0, fun _ => 0⟩
  mem := Function.update emptyImage.mem 4096 7

/-- Recovery that is cut off when it has invalidated the start record of the committed one takes
the other for a part of it. -/
theorem adjoiningImage_not_restartable : ∃ u,
    (pmfsRecoverJournal ⟨256, false⟩).CrashState adjoiningImage u ∧
    ((pmfsRecoverJournal ⟨256, false⟩).exec u).1.mem 4096 = 7 ∧
    ((pmfsRecoverJournal ⟨256, false⟩).exec adjoiningImage).1.mem 4096 = 0 := by
  refine ⟨{ adjoiningImage with area := clearGenIds adjoiningImage.area 64 1 }, ?_, ?_, ?_⟩
  · exact Or.inr (Or.inl rfl)
  · decide
  · decide

end Wpmfs.Journal
