import Wpmfs.Journal.Reservation

/-!
# When the journal is found full

Once every transaction has finished, the cleaning pass moves the head up to the tail, and the whole
area is free. `pmfs_new_transaction` does not look at the head again: it adds the entries the pass
has come across to the space that was free before. `FoundFull` lists the states in which that is
less than the request.
-/

namespace Wpmfs.Journal

open Persist

/-- The states in which a request for `req` bytes fails, with `n` entries written by the
transactions between head and tail, all of which have finished. -/
inductive FoundFull (sbi : SbInfo) (s : Image) (n req : Nat) : Prop where
  /-- The pass frees the journal, but counts only the entries that were written. -/
  | uncounted : availSize sbi s.head s.tail + 64 * n < req → FoundFull sbi s n req
  /-- The request does not fit below the end of the area, and from offset 0 on it does not fit
  below the head that was read before the pass. -/
  | staleHead : availSize sbi s.head s.tail < req → sbi.jsize ≤ s.tail + req →
      availSize sbi s.head 0 < req → FoundFull sbi s n req
  /-- The request fits neither below the end of the area nor, with the entries that the pass
  counts, from offset 0 on. -/
  | restart : req ≤ availSize sbi s.head s.tail → sbi.jsize ≤ s.tail + req →
      availSize sbi s.head 0 + 64 * n < req → FoundFull sbi s n req

section

variable {sbi : SbInfo} {s : Image} {req n : Nat} {older newer rs : List Region}

theorem survey_of_finished (h : ∀ r ∈ older ++ newer, r.finished = true) :
    survey sbi s older newer = ⟨s.tail, entries (older ++ newer), 0, 0⟩ := by
  have holder := remaining_of_finished fun r hr => h r (List.mem_append_left _ hr)
  have hnewer := remaining_of_finished fun r hr => h r (List.mem_append_right _ hr)
  simp [survey, holder, hnewer, entries]

theorem reported_zero {avail : Nat} (h : avail + 64 * n < 2 ^ 32) :
    Reported avail n 0 req ↔ req ≤ avail + 64 * n := by
  simp only [reported_iff, Nat.mul_zero, Nat.add_zero]
  omega

/-- A request the free space covers, also after setting the tail to 0 where that is needed. -/
theorem exec_reserve_finished_of_le (hs : Shape sbi s)
    (hf : Surveyed sbi s ⟨s.tail, n, 0, 0⟩) (hsmall : req < sbi.jsize)
    (hle : req ≤ availSize sbi s.head s.tail) :
    (FoundFull sbi s n req → ∃ t, (reserve sbi req 2 s.head s.tail).exec s = (t, .ok none)) ∧
    (¬FoundFull sbi s n req →
      ∃ t r, (reserve sbi req 2 s.head s.tail).exec s = (t, .ok (some r))) := by
  obtain ⟨hA, hA₀⟩ := availSize_cases hs
  obtain ⟨hsize, hsize', hdh, hdt, hhead, htail, hgen⟩ := id hs
  rw [exec_reserve_of_le hle, granted, Nat.mod_eq_of_lt (by omega)]
  by_cases hend : s.tail + req < sbi.jsize
  · rw [if_neg (by omega)]
    refine ⟨fun hfull => ?_, fun _ => ⟨_, _, rfl⟩⟩
    cases hfull <;> omega
  rw [if_pos (by omega)]
  by_cases hle₀ : req ≤ availSize sbi s.head 0
  · -- below the head
    rw [exec_reserve_of_le hle₀, granted, Nat.zero_add, Nat.mod_eq_of_lt (by omega),
      if_neg (by omega)]
    refine ⟨fun hfull => ?_, fun _ => ⟨_, _, rfl⟩⟩
    cases hfull <;> omega
  -- the pass frees what is left
  obtain ⟨area', hfront⟩ := hf.restart (by omega) (by omega)
  have hcount := hf.counted (by omega)
  rw [if_neg (Nat.lt_irrefl _), if_neg (Nat.lt_irrefl _)] at hfront
  dsimp only at hfront hcount
  have hpass := exec_reserve_of_lt 0 hs.restarted hfront (Nat.lt_of_not_le hle₀) (by omega)
    (by omega) (by omega)
  rw [reported_zero (by omega)] at hpass
  refine ⟨fun hfull => ⟨_, hpass.2 ?_⟩, fun hfull => ?_⟩
  · cases hfull <;> omega
  · have hfit : req ≤ availSize sbi s.head 0 + 64 * n := by
      by_contra hlt
      exact hfull (.restart hle (by omega) (by omega))
    rw [hpass.1 hfit, granted, Nat.zero_add, Nat.mod_eq_of_lt (by omega), if_neg (by omega)]
    exact ⟨_, _, rfl⟩

/-- A request that needs a cleaning pass from the start. -/
theorem exec_reserve_finished_of_lt (hs : Shape sbi s)
    (hf : Surveyed sbi s ⟨s.tail, n, 0, 0⟩) (hsmall : req < sbi.jsize)
    (hlt : availSize sbi s.head s.tail < req) :
    (FoundFull sbi s n req → ∃ t, (reserve sbi req 2 s.head s.tail).exec s = (t, .ok none)) ∧
    (¬FoundFull sbi s n req →
      ∃ t r, (reserve sbi req 2 s.head s.tail).exec s = (t, .ok (some r))) := by
  obtain ⟨hA, hA₀⟩ := availSize_cases hs
  obtain ⟨hsize, hsize', hdh, hdt, hhead, htail, hgen⟩ := id hs
  obtain ⟨area', hfront, h₂, area'', hfront₂, -⟩ := hf.front
  have hcount := hf.blocking
  dsimp only at hfront hcount
  rw [if_neg fun h => Nat.lt_irrefl _ h.2] at hfront₂
  have hbound : availSize sbi s.head s.tail + 64 * n < 2 ^ 32 := by
    split at hcount <;> omega
  have hpass := exec_reserve_of_lt 1 hs hfront hlt (by omega) (by omega) (by omega)
  rw [reported_zero hbound] at hpass
  by_cases hfit : req ≤ availSize sbi s.head s.tail + 64 * n
  swap
  · exact ⟨fun _ => ⟨_, hpass.2 hfit⟩, fun hfull => (hfull (.uncounted (by omega))).elim⟩
  rw [hpass.1 hfit, granted, Nat.mod_eq_of_lt (by omega)]
  by_cases hend : s.tail + req < sbi.jsize
  · rw [if_neg (by omega)]
    refine ⟨fun hfull => ?_, fun _ => ⟨_, _, rfl⟩⟩
    cases hfull <;> omega
  rw [if_pos (by omega)]
  by_cases hle₀ : req ≤ availSize sbi s.head 0
  · -- below the head that was read before the pass
    rw [exec_reserve_of_le hle₀, granted, Nat.zero_add, Nat.mod_eq_of_lt (by omega),
      if_neg (by omega)]
    refine ⟨fun hfull => ?_, fun _ => ⟨_, _, rfl⟩⟩
    cases hfull <;> omega
  · -- another pass finds nothing to count
    have hpass₂ := exec_reserve_of_lt 0 (hfront.shape hs).restarted hfront₂
      (Nat.lt_of_not_le hle₀) (by omega) (by omega) (by omega)
    rw [reported_zero (by omega)] at hpass₂
    exact ⟨fun _ => ⟨_, hpass₂.2 (by omega)⟩,
      fun hfull => (hfull (.staleHead hlt (by omega) (by omega))).elim⟩

/-- A request that is smaller than the area gets an answer, and which one is up to `FoundFull`. -/
theorem exec_reserve_finished (hs : Shape sbi s) (hw : WellFormed sbi s older newer)
    (hfin : ∀ r ∈ older ++ newer, r.finished = true) (hsmall : req < sbi.jsize) :
    (FoundFull sbi s (entries (older ++ newer)) req →
      ∃ t, (reserve sbi req 2 s.head s.tail).exec s = (t, .ok none)) ∧
    (¬FoundFull sbi s (entries (older ++ newer)) req →
      ∃ t r, (reserve sbi req 2 s.head s.tail).exec s = (t, .ok (some r))) := by
  have hf := hw.surveyed hs
  rw [survey_of_finished hfin] at hf
  rcases Nat.lt_or_ge (availSize sbi s.head s.tail) req with h | h
  · exact exec_reserve_finished_of_lt hs hf hsmall h
  · exact exec_reserve_finished_of_le hs hf hsmall h

/-- `pmfs_new_transaction` gets a region. -/
def Succeeds (sbi : SbInfo) (s : Image) (tid : UInt32) (max : Nat) : Prop :=
  ∃ fuel t trans, (pmfsNewTransaction sbi fuel tid max).exec s = (t, .ok (some trans))

theorem succeeds_of_some {tid : UInt32} {max fuel : Nat} {t : Image} {r : UInt16 × Nat}
    (h : (reserve sbi (reqSize max) fuel s.head s.tail).exec s = (t, .ok (some r))) :
    Succeeds sbi s tid max :=
  ⟨fuel, t, ⟨tid, (max + 1) % 2 ^ 16, 0, r.1, r.2⟩, exec_pmfsNewTransaction.2 ⟨h, rfl⟩⟩

theorem not_succeeds_of_none {tid : UInt32} {max fuel : Nat} {t : Image}
    (h : (reserve sbi (reqSize max) fuel s.head s.tail).exec s = (t, .ok none)) :
    ¬Succeeds sbi s tid max := by
  rintro ⟨fuel', t', trans, he⟩
  have h₁ := exec_reserve_mono h fuel'
  have h₂ := exec_reserve_mono (exec_pmfsNewTransaction.1 he).1 fuel
  rw [Nat.add_comm, h₂] at h₁
  cases h₁

end

/-- A journal of 1024 entries, with three transactions that reserved 256 of them each and wrote
two. -/
def committedImage : Image :=
  { emptyImage with
    head := 64
    tail := 49216
    area := fun le =>
      if le < 49216 ∧ le % 16384 = 64 then ⟨0, 1, 1, leStart, 0, fun _ => 0⟩
      else if le < 49216 ∧ le % 16384 = 128 then ⟨0, 1, 1, leCommit, 0, fun _ => 0⟩
      else ⟨0, 0, 0, 0, 0, fun _ => 0⟩ }

def committed (k : Nat) : Region := ⟨64 + 16384 * k, 256, 2, true⟩

theorem committedImage_shape : Shape ⟨65536, false⟩ committedImage where
  dvd_size := by decide
  size_le := by decide
  dvd_head := by decide
  dvd_tail := by decide
  head_lt := by decide
  tail_lt := by decide
  genId_ne := by decide

theorem committed_written {k : Nat} (hk : k < 3) : (committed k).Written 1 committedImage.area := by
  have hentry : ∀ i < 256, committedImage.area ((committed k).start + 64 * i) =
      if i = 0 then ⟨0, 1, 1, leStart, 0, fun _ => 0⟩
      else if i = 1 then ⟨0, 1, 1, leCommit, 0, fun _ => 0⟩
      else ⟨0, 0, 0, 0, 0, fun _ => 0⟩ := by
    intro i hi
    have hlt : 64 + 16384 * k + 64 * i < 49216 := by omega
    have hz : (64 + 16384 * k + 64 * i) % 16384 = 64 ↔ i = 0 := by omega
    have ho : (64 + 16384 * k + 64 * i) % 16384 = 128 ↔ i = 1 := by omega
    simp [committedImage, committed, hlt, hz, ho]
  have hused : (committed k).used = 2 := rfl
  have hlen : (committed k).len = 256 := rfl
  refine ⟨?_, ?_, fun i hi => ?_, fun i hi hi' => ?_, fun i hi => ?_, fun i hi => ?_⟩
  · omega
  · omega
  · rw [hentry i (by omega)]
    obtain rfl | rfl : i = 0 ∨ i = 1 := by omega
    · rfl
    · rfl
  · rw [hentry i (by omega), if_neg (by omega), if_neg (by omega)]
    decide
  · rw [hentry i (by omega)]
    obtain rfl | rfl : i = 0 ∨ i = 1 := by omega
    · rfl
    · rfl
  · rw [hentry i (by omega)]
    obtain rfl | rfl : i = 0 ∨ i = 1 := by omega
    · rfl
    · rfl

theorem committedImage_wellFormed :
    WellFormed ⟨65536, false⟩ committedImage [] [committed 0, committed 1, committed 2] := by
  refine .straight (by decide) ⟨rfl, rfl, rfl, rfl⟩ (fun r hr => ?_) fun le h _ _ => ?_
  · simp only [List.mem_cons, List.not_mem_nil, or_false] at hr
    rcases hr with rfl | rfl | rfl <;> exact committed_written (by decide)
  · have hge : 49216 ≤ le := h
    have hlt : ¬le < 49216 := by omega
    simp [committedImage, hlt, emptyImage]

end Wpmfs.Journal
