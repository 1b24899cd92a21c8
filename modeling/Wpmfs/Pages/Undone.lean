import Wpmfs.Pages.Basic

/-!
# What an abort would leave

Beside memory as it is, a transaction has memory as an abort would leave it. Logging changes
neither. A store changes both, except that the second one keeps its value at a byte that is in the
log.
-/

namespace Wpmfs.Pages

open Bytes Persist Journal UndoLog

namespace Tx

/-- Memory as an abort would leave it. -/
def undone (s : Tx) (sbi : SbInfo) : Mem :=
  undo (logOf sbi s.trans.genId s.image.area s.trans.start s.trans.numUsed) s.mem

/-- The bytes that are in the log. -/
def logged (s : Tx) (sbi : SbInfo) : Set ℕ :=
  dom (logOf sbi s.trans.genId s.image.area s.trans.start s.trans.numUsed)

/-- The entries of the transaction are data entries that can be undone. -/
def Logs (s : Tx) (sbi : SbInfo) : Prop :=
  (OpenTx.owned s.trans (s.undone sbi)).Unfinished sbi s.trans.numUsed s.image

/-- A range has been logged. -/
structure Recorded (sbi : SbInfo) (addr size : ℕ) (s t : Tx) : Prop where
  logs : t.Logs sbi
  mem : t.mem = s.mem
  undone : t.undone sbi = s.undone sbi
  logged : s.logged sbi ⊆ t.logged sbi
  range : ∀ x, addr ≤ x → x < addr + size → x ∈ t.logged sbi
  free : t.free = s.free
  trans : t.trans = { s.trans with numUsed := s.trans.numUsed + numLes size leData }

variable {sbi : SbInfo} {s t : Tx} {f : Mem → Mem} {x addr size : ℕ}

@[simp] theorem mem_store : (s.store f).mem = f s.mem := rfl

@[simp] theorem free_store : (s.store f).free = s.free := rfl

@[simp] theorem trans_store : (s.store f).trans = s.trans := rfl

@[simp] theorem logged_store : (s.store f).logged sbi = s.logged sbi := rfl

theorem undone_of_notMem (h : x ∉ s.logged sbi) : s.undone sbi x = s.mem x := undo_of_notMem h

/-- A store does not change what an abort leaves in a byte that is logged, or that keeps its
value. -/
theorem undone_store (h : x ∈ s.logged sbi ∨ f s.mem x = s.mem x) :
    (s.store f).undone sbi x = s.undone sbi x :=
  undo_congr fun hx => h.resolve_left hx

theorem logs_begin (h : s.trans.numUsed = 0) : s.Logs sbi := by
  rw [Logs, h]
  exact ⟨⟨Nat.zero_le _, by simp, by simp [OpenTx.owned], by simp, by simp⟩, by simp, by simp,
    fun a _ => by rw [OpenTx.owned, undone, h]; rfl⟩

theorem undone_begin (h : s.trans.numUsed = 0) : s.undone sbi = s.mem := by
  rw [undone, h]
  rfl

theorem Logs.store (h : s.Logs sbi) (f : Mem → Mem) : (s.store f).Logs sbi :=
  ⟨⟨h.le, h.gen, h.stale, h.isStart, h.isFinish⟩, h.mapped, fun _ _ => trivial, fun _ _ => rfl⟩

/-- A call of `pmfs_add_logentry` that fits. -/
theorem Logs.log (h : s.Logs sbi) (haddr : Addressable sbi addr size)
    (hfit : s.trans.numUsed + numLes size leData ≤ s.trans.numEntries) :
    Recorded sbi addr size s (s.log addr size) := by
  obtain ⟨image, r, hexec, hmem, hr⟩ := exec_pmfsAddLogentry s.trans addr size leData s.image
  rw [if_neg (by omega)] at hr
  subst hr
  have hsafe := Owned.safe_pmfsAddLogentry (OpenTx.handle_owned s.trans _) hfit haddr
    (fun _ _ => Set.mem_univ _) h
  obtain ⟨image', r', hexec', trans', rfl, -, hlog, hcovers⟩ :=
    (hsafe.mono (fun hst => hst ▸ AgreeOn.refl _) id id).exec
  rw [hexec] at hexec'
  cases hexec'
  have heq : s.log addr size =
      ⟨image, { s.trans with numUsed := s.trans.numUsed + numLes size leData }, s.free⟩ := by
    rw [Tx.log, hexec]
    rfl
  rw [heq]
  -- the log still takes memory back to the same
  have hundone : Tx.undone
      ⟨image, { s.trans with numUsed := s.trans.numUsed + numLes size leData }, s.free⟩ sbi =
      s.undone sbi := funext fun a => hlog.restores a trivial
  refine ⟨?_, hmem, hundone, fun a ha => hcovers a (.inl ha),
    fun a hle hlt => hcovers a (.inr ⟨hle, hlt⟩), rfl, rfl⟩
  rw [Logs, hundone]
  exact hlog

theorem mem_log (s : Tx) (addr size : ℕ) : (s.log addr size).mem = s.mem := by
  obtain ⟨image, r, hexec, hmem, -⟩ := exec_pmfsAddLogentry s.trans addr size leData s.image
  rw [Tx.log, hexec]
  exact hmem

/-- A call of `pmfs_add_logentry`, whether it fits or not. -/
theorem Logs.log_of_addressable (h : s.Logs sbi) (haddr : Addressable sbi addr size) :
    (s.log addr size).Logs sbi := by
  by_cases hfit : s.trans.numUsed + numLes size leData ≤ s.trans.numEntries
  · exact (h.log haddr hfit).logs
  · have hnone : (pmfsAddLogentry s.trans addr size leData).exec s.image =
        (s.image, .ok none) := by
      rw [pmfsAddLogentry, if_pos (by omega)]
      rfl
    rw [Tx.log, hnone]
    exact h

/-- A part of a call, with at most `n` more entries in the log: what an abort leaves changes in the
bytes `touched` only. -/
structure Advances (sbi : SbInfo) (touched : Set ℕ) (n : ℕ) (s t : Tx) : Prop where
  logs : t.Logs sbi
  trans : ∃ j ≤ n, t.trans = { s.trans with numUsed := s.trans.numUsed + j }
  logged : s.logged sbi ⊆ t.logged sbi
  undone : ∀ x, x ∉ touched → t.undone sbi x = s.undone sbi x

variable {touched touched' : Set ℕ} {n k : ℕ} {u : Tx}

theorem Advances.refl (h : s.Logs sbi) : Advances sbi touched n s s :=
  ⟨h, ⟨0, Nat.zero_le _, rfl⟩, fun _ => id, fun _ _ => rfl⟩

theorem Advances.trans_of_le (h : Advances sbi touched n s t) (h' : Advances sbi touched' k t u)
    (hover : touched' ⊆ touched) : Advances sbi touched (n + k) s u := by
  obtain ⟨i, hi, ht⟩ := h.trans
  obtain ⟨j, hj, hu⟩ := h'.trans
  refine ⟨h'.logs, ⟨i + j, by omega, ?_⟩, h.logged.trans h'.logged, fun x hx => ?_⟩
  · rw [hu, ht, Nat.add_assoc]
  · exact (h'.undone x fun hin => hx (hover hin)).trans (h.undone x hx)

theorem Advances.mono (h : Advances sbi touched n s t) (hover : touched ⊆ touched') (hn : n ≤ k) :
    Advances sbi touched' k s t := by
  obtain ⟨j, hj, ht⟩ := h.trans
  exact ⟨h.logs, ⟨j, by omega, ht⟩, h.logged, fun x hx => h.undone x fun hin => hx (hover hin)⟩

theorem Advances.store (h : Advances sbi touched n s t)
    (hf : ∀ x, x ∉ touched → x ∈ t.logged sbi ∨ f t.mem x = t.mem x) :
    Advances sbi touched n s (t.store f) :=
  ⟨h.logs.store f, h.trans, h.logged, fun x hx => (undone_store (hf x hx)).trans (h.undone x hx)⟩

theorem Recorded.advances (h : Recorded sbi addr size s t) :
    Advances sbi touched (numLes size leData) s t :=
  ⟨h.logs, ⟨_, le_rfl, h.trans⟩, h.logged, fun x _ => congrFun h.undone x⟩

theorem Advances.numUsed_le (h : Advances sbi touched n s t) :
    t.trans.numUsed ≤ s.trans.numUsed + n ∧ t.trans.numEntries = s.trans.numEntries := by
  obtain ⟨j, hj, ht⟩ := h.trans
  rw [ht]
  exact ⟨by dsimp only; omega, rfl⟩

/-- `pmfs_abort_transaction` leaves memory as foreseen. -/
theorem Logs.abort (h : s.Logs sbi) :
    ∃ t r, (pmfsAbortTransaction sbi s.trans).exec s.image = (t, .ok r) ∧ t.mem = s.undone sbi := by
  have hundo := @exec_pmfsUndoTransaction sbi s.image s.trans fun i hi _ => h.mapped i hi
  obtain ⟨t, r, hexec, hmem, -⟩ := exec_pmfsAddLogentry s.trans 0 0 leAbort { s.image with
    mem := undo (logOf sbi s.trans.genId s.image.area s.trans.start s.trans.numUsed) s.image.mem }
  refine ⟨t, r, ?_, hmem⟩
  rw [pmfsAbortTransaction, Prog.exec_bind, hundo]
  exact hexec

end Tx

end Wpmfs.Pages
