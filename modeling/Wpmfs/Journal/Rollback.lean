import Wpmfs.Journal.Logging

/-!
# Logging and then aborting

A transaction between `pmfs_new_transaction` and `pmfs_abort_transaction`: its thread logs ranges
and stores into bytes that it has logged. Whatever it does, the log takes memory back to what it was
at the start, so an abort undoes all of it. Block offset 0 of an area is read back as a null
pointer, except in the dynamic area.
-/

namespace Wpmfs.Journal

open Persist UndoLog

/-- A range in the direct area, where offset 0 is the null pointer, or in one of the areas that are
mapped. -/
inductive InArea (sbi : SbInfo) (addr size : Nat) : Prop
  | direct (hpos : 0 < addr) (hend : addr + size ≤ 2 ^ 57)
  | static (hvmap : sbi.vmapEnabled = true) (hstart : 2 ^ 57 ≤ addr)
      (hend : addr + size ≤ 2 * 2 ^ 57)
  | dynamic (hvmap : sbi.vmapEnabled = true) (hstart : 2 * 2 ^ 57 ≤ addr)
      (hend : addr + size ≤ 3 * 2 ^ 57)

/-- The same, but for the start of the static area. -/
def Nameable (sbi : SbInfo) (addr size : Nat) : Prop := InArea sbi addr size ∧ addr ≠ 2 ^ 57

/-- An open transaction with the values that the logged bytes had when they were first logged. -/
structure OpenTx where
  image : Image
  trans : Transaction
  first : Patch Nat UInt8

namespace OpenTx

/-- The values of the logged bytes after the range has been logged. -/
def logRange (s : OpenTx) (addr size : Nat) : Patch Nat UInt8 := fun a =>
  (s.first a).or (if addr ≤ a ∧ a < addr + size then some (s.image.mem a) else none)

/-- `pmfs_add_logentry` of a range, or a store to a logged byte. -/
inductive Step (sbi : SbInfo) (area : Nat → Nat → Prop) (s : OpenTx) : OpenTx → Prop
  | log {addr size : Nat} {image : Image} {trans : Transaction} (hpos : 0 < size)
      (hsize : size < 2 ^ 16) (harea : area addr size)
      (hcall : (pmfsAddLogentry s.trans addr size leData).exec s.image =
        (image, .ok (some trans))) :
      Step sbi area s ⟨image, trans, s.logRange addr size⟩
  | store {a : Nat} {v : UInt8} (hlogged : (s.first a).isSome) :
      Step sbi area s { s with image := apply s.image (.mem a v) }

abbrev Reaches (sbi : SbInfo) (area : Nat → Nat → Prop) : OpenTx → OpenTx → Prop :=
  Relation.ReflTransGen (Step sbi area)

/-- Nothing has been logged. -/
structure Begun (s : OpenTx) : Prop where
  numUsed : s.trans.numUsed = 0
  first : ∀ a, s.first a = none

/-- Abort gives each logged byte the value it had when it was first logged, and changes no other
one; a range is logged if its entries fit, and otherwise nothing is written. -/
structure Undoable (sbi : SbInfo) (area : Nat → Nat → Prop) (s : OpenTx) : Prop where
  abort : ∃ t r, (pmfsAbortTransaction sbi s.trans).exec s.image = (t, .ok r) ∧
    (∀ a v, s.first a = some v → t.mem a = v) ∧ ∀ a, s.first a = none → t.mem a = s.image.mem a
  logs : ∀ addr size, 0 < size → size < 2 ^ 16 → area addr size →
    s.trans.numUsed + (size + 47) / 48 ≤ s.trans.numEntries →
      ∃ t, s.Step sbi area t ∧ t.first = s.logRange addr size ∧
        t.trans.numUsed = s.trans.numUsed + (size + 47) / 48 ∧ t.image.mem = s.image.mem
  full : ∀ addr size, 0 < size → size < 2 ^ 16 →
    s.trans.numEntries < s.trans.numUsed + (size + 47) / 48 →
      (pmfsAddLogentry s.trans addr size leData).exec s.image = (s.image, .ok none)

end OpenTx

variable {sbi : SbInfo} {trans trans' : Transaction} {addr size num i : Nat} {type : UInt8}
  {s t : OpenTx} {image image' : Image} {mem : Nat → UInt8}

theorem Nameable.addressable (h : Nameable sbi addr size) : Addressable sbi addr size := by
  intro i hi
  obtain ⟨harea, hne⟩ := h
  rw [wpmfsGetBlock]
  cases harea with
  | direct hpos hend =>
    have harea : (addr + i) / 2 ^ 57 % 2 ^ 7 = 0 := by omega
    have hval : (addr + i) % 2 ^ 57 = addr + i := by omega
    rw [harea, hval]
    exact if_neg (by omega)
  | static hvmap hstart hend =>
    have harea : (addr + i) / 2 ^ 57 % 2 ^ 7 = 1 := by omega
    have hval : 2 ^ 57 + (addr + i) % 2 ^ 57 = addr + i := by omega
    simp only [harea]
    rw [if_neg (by omega), if_pos hvmap, hval]
  | dynamic hvmap hstart hend =>
    have harea : (addr + i) / 2 ^ 57 % 2 ^ 7 = 2 := by omega
    have hval : 2 * 2 ^ 57 + (addr + i) % 2 ^ 57 = addr + i := by omega
    simp only [harea]
    rw [if_pos hvmap, hval]

/-! ## What logging leaves alone -/

/-- Memory is the same. -/
def SameMem (s t : Image) : Prop := t.mem = s.mem

theorem always_setField (le : Nat) (f : Image → Field) :
    (setField le f).Always SameMem fun r => r = .ok () :=
  ⟨fun _ => rfl, rfl⟩

/-- Each store of the loop goes to a log entry. -/
theorem always_addLogentryBody : (addLogentryBody trans addr size type num i).Always SameMem
    fun r => r = .ok () := by
  have hnext : ∀ {p : JProg Unit} {q : Unit → JProg Unit}, p.Always SameMem (· = .ok ()) →
      (∀ a, (q a).Always SameMem (· = .ok ())) → (p >>= q).Always SameMem (· = .ok ()) :=
    fun hp hq => hp.bind (fun a _ => hq a) fun e he => by cases he
  have hwhen : ∀ {c : Prop} [Decidable c] {p : JProg Unit}, p.Always SameMem (· = .ok ()) →
      (Prog.when c p).Always SameMem (· = .ok ()) := by
    intro c _ p hp
    rw [Prog.when]
    split
    · exact hp
    · exact rfl
  unfold addLogentryBody
  refine hnext (always_setField ..) fun _ => hnext (always_setField ..) fun _ =>
    hnext (always_setField ..) fun _ => hnext ?_ fun _ => hnext (always_setField ..) fun _ =>
    hnext (hwhen (always_setField ..)) fun _ => hnext (hwhen (always_setField ..)) fun _ =>
    always_setField ..
  exact Prog.Always.forRange rfl fun _ => always_setField ..

/-- A call that fits counts its entries, one that does not writes nothing, and memory stays. -/
theorem exec_pmfsAddLogentry (trans : Transaction) (addr size : Nat) (type : UInt8)
    (image : Image) : ∃ t r, (pmfsAddLogentry trans addr size type).exec image = (t, .ok r) ∧
      t.mem = image.mem ∧
      r = if trans.numEntries < trans.numUsed + numLes size type then none
        else some { trans with numUsed := trans.numUsed + numLes size type } := by
  rw [pmfsAddLogentry]
  split
  · exact ⟨image, none, rfl, rfl, rfl⟩
  · have hloop : (Prog.forRange (fun i _ => addLogentryBody trans addr size type
        (numLes size type) i) (numLes size type) ()).Always SameMem (· = .ok ()) :=
      Prog.Always.forRange rfl fun _ => always_addLogentryBody
    obtain ⟨hmem, hok⟩ := Prog.Always.exec (G := SameMem) (fun _ => rfl)
      (fun hst htu => htu.trans hst) hloop image
    generalize hrun : Prog.exec _ image = run at hmem hok
    obtain ⟨t, r⟩ := run
    dsimp only at hok
    subst hok
    refine ⟨t, _, ?_, hmem, rfl⟩
    rw [Prog.exec_bind, hrun]
    rfl

theorem numLes_of_pos (hpos : 0 < size) (type : UInt8) : numLes size type = (size + 47) / 48 := by
  rw [numLes, if_neg hpos.ne']
  omega

/-! ## The log of an open transaction -/

namespace OpenTx

/-- What the transaction owns when it runs alone: its region, and all memory as it was. -/
def owned (trans : Transaction) (mem : Nat → UInt8) : Owned :=
  ⟨trans.start, trans.numEntries, trans.genId, ∅, Set.univ, mem⟩

/-- The log takes memory back to `mem`. Every byte that was not logged still holds what it held, and
every one that was logged is in the log. -/
structure Reverts (sbi : SbInfo) (mem : Nat → UInt8) (s : OpenTx) : Prop where
  log : (owned s.trans mem).Unfinished sbi s.trans.numUsed s.image
  kept : ∀ a, s.first a = none → s.image.mem a = mem a
  first : ∀ a v, s.first a = some v → v = mem a
  logged : ∀ a, (s.first a).isSome →
    a ∈ dom (logOf sbi s.trans.genId s.image.area s.trans.start s.trans.numUsed)

theorem handle_owned (trans : Transaction) (mem : Nat → UInt8) : (owned trans mem).Handle trans :=
  ⟨rfl, rfl, le_rfl⟩

theorem Begun.reverts (h : s.Begun) : s.Reverts sbi s.image.mem := by
  refine ⟨?_, fun _ _ => rfl, fun a v hv => ?_, fun a ha => ?_⟩
  · rw [h.numUsed]
    exact ⟨⟨Nat.zero_le _, by simp, by simp [owned], by simp, by simp⟩, by simp, by simp,
      restores_nil _ _⟩
  · rw [h.first] at hv
    cases hv
  · rw [h.first] at ha
    cases ha

/-- A range that is logged holds its old bytes, or was logged before. -/
theorem logRange_eq {a : Nat} {v : UInt8} (h : s.Reverts sbi mem)
    (hv : s.logRange addr size a = some v) : v = mem a := by
  unfold logRange at hv
  cases hfirst : s.first a with
  | some w =>
    rw [hfirst, Option.some_or] at hv
    exact h.first a v (hfirst.trans hv)
  | none =>
    rw [hfirst, Option.none_or] at hv
    have hkept := h.kept a hfirst
    grind

/-- Logging a range that fits. -/
theorem Reverts.log_range (h : s.Reverts sbi mem) (haddr : Addressable sbi addr size)
    (hfit : s.trans.numUsed + numLes size leData ≤ s.trans.numEntries) :
    ∃ t, (pmfsAddLogentry s.trans addr size leData).exec s.image =
        (t, .ok (some { s.trans with numUsed := s.trans.numUsed + numLes size leData })) ∧
      t.mem = s.image.mem ∧
      Reverts sbi mem ⟨t, { s.trans with numUsed := s.trans.numUsed + numLes size leData },
        s.logRange addr size⟩ := by
  obtain ⟨t, r, hexec, hmem, hr⟩ := exec_pmfsAddLogentry s.trans addr size leData s.image
  rw [if_neg (by omega)] at hr
  subst hr
  have hsafe := Owned.safe_pmfsAddLogentry (handle_owned s.trans mem) hfit haddr
    (fun _ _ => Set.mem_univ _) h.log
  obtain ⟨t', r', hexec', trans', rfl, -, hlog, hcovers⟩ :=
    (hsafe.mono (fun hst => hst ▸ AgreeOn.refl _) id id).exec
  rw [hexec] at hexec'
  cases hexec'
  refine ⟨t, hexec, hmem, hlog, fun a ha => ?_, fun a v => logRange_eq h, fun a ha => ?_⟩
  · rw [hmem]
    exact h.kept a (Option.or_eq_none_iff.mp ha).1
  · refine hcovers a ?_
    rcases hfirst : s.first a with _ | v
    · right
      by_contra hout
      dsimp only at ha
      rw [logRange, hfirst, Option.none_or, if_neg hout] at ha
      cases ha
    · exact .inl (h.logged a (by rw [hfirst]; rfl))

theorem Step.reverts (hstep : s.Step sbi (Nameable sbi) t) (h : s.Reverts sbi mem) :
    t.Reverts sbi mem := by
  cases hstep with
  | @log addr size image trans hpos hsize harea hcall =>
    obtain ⟨t, r, hexec, -, hr⟩ := exec_pmfsAddLogentry s.trans addr size leData s.image
    rw [hexec] at hcall
    cases hcall
    split at hr
    · cases hr
    · obtain ⟨t', hexec', -, hreverts⟩ := h.log_range harea.addressable (by omega)
      rw [hexec] at hexec'
      cases hexec'
      exact hreverts
  | @store a v hlogged =>
    have hne : ∀ b, s.first b = none → b ≠ a := by
      rintro b hb rfl
      rw [hb] at hlogged
      cases hlogged
    refine ⟨h.log.memStore ⟨a, h.logged a hlogged, v, rfl⟩, fun b hb => ?_, h.first, h.logged⟩
    exact (Function.update_of_ne (hne b hb) ..).trans (h.kept b hb)

theorem Reaches.reverts (hrun : s.Reaches sbi (Nameable sbi) t) (h : s.Reverts sbi mem) :
    t.Reverts sbi mem := by
  induction hrun with
  | refl => exact h
  | tail _ hstep ih => exact hstep.reverts ih

/-- Abort takes all of memory back. -/
theorem Reverts.abort (h : s.Reverts sbi mem) :
    ∃ t r, (pmfsAbortTransaction sbi s.trans).exec s.image = (t, .ok r) ∧ t.mem = mem := by
  have hundo := @exec_pmfsUndoTransaction sbi s.image s.trans fun i hi _ => h.log.mapped i hi
  obtain ⟨t, r, hexec, hmem, -⟩ := exec_pmfsAddLogentry s.trans 0 0 leAbort { s.image with
    mem := undo (logOf sbi s.trans.genId s.image.area s.trans.start s.trans.numUsed) s.image.mem }
  refine ⟨t, r, ?_, hmem.trans (funext fun a => h.log.restores a trivial)⟩
  rw [pmfsAbortTransaction, Prog.exec_bind, hundo]
  exact hexec

/-- After any calls and stores of an open transaction an abort gives each logged byte the value it
had when it was first logged and changes no other byte, and a range is logged exactly if its entries
fit. -/
theorem Reaches.undoable (hrun : s.Reaches sbi (Nameable sbi) t) (h : s.Begun) :
    t.Undoable sbi (Nameable sbi) := by
  have hreverts := hrun.reverts h.reverts
  refine ⟨?_, fun addr size hpos hsize harea hfit => ?_, fun addr size hpos hsize hfull => ?_⟩
  · obtain ⟨u, r, hexec, hmem⟩ := hreverts.abort
    refine ⟨u, r, hexec, fun a v hv => ?_, fun a ha => ?_⟩
    · rw [hmem, hreverts.first a v hv]
    · rw [hmem, hreverts.kept a ha]
  · have hnum := numLes_of_pos hpos leData
    obtain ⟨image, hexec, hmem, -⟩ := hreverts.log_range harea.addressable (by omega)
    exact ⟨_, .log hpos hsize harea hexec, rfl, by rw [hnum], hmem⟩
  · have hnum := numLes_of_pos hpos leData
    rw [pmfsAddLogentry, hnum, if_pos (by omega)]
    rfl

/-- A transaction of three entries in a journal that was never used. -/
def begunTx : OpenTx := ⟨emptyImage, ⟨1, 3, 0, 1, 0⟩, fun _ => none⟩

theorem begun_begunTx : begunTx.Begun := ⟨rfl, fun _ => rfl⟩

/-- 100 bytes of the static area are logged. -/
theorem undoable_begunTx : ∃ t, begunTx.Step ⟨4096, true⟩ (Nameable ⟨4096, true⟩) t ∧
    t.Undoable ⟨4096, true⟩ (Nameable ⟨4096, true⟩) := by
  have hbegun := @Reaches.undoable ⟨4096, true⟩ _ _ .refl begun_begunTx
  obtain ⟨t, hstep, -⟩ := hbegun.logs (2 ^ 57 + 64) 100 (by decide) (by decide)
    ⟨.static rfl (by decide) (by decide), by decide⟩ (by decide)
  exact ⟨t, hstep, Reaches.undoable (.single hstep) begun_begunTx⟩

/-- The start of the static area is logged, and undoing that uses a null pointer. -/
theorem not_undoable_of_static : ¬∀ (sbi : SbInfo) (s t : OpenTx), s.Begun →
    s.Reaches sbi (InArea sbi) t → t.Undoable sbi (InArea sbi) := by
  intro h
  have hlog : begunTx.Step ⟨4096, true⟩ (InArea ⟨4096, true⟩)
      ⟨((pmfsAddLogentry begunTx.trans (2 ^ 57) 1 leData).exec begunTx.image).1,
        { begunTx.trans with numUsed := 1 }, begunTx.logRange (2 ^ 57) 1⟩ :=
    .log (by decide) (by decide) (.static rfl le_rfl (by decide)) rfl
  obtain ⟨t, r, hexec, -⟩ := (h _ _ _ begun_begunTx (.single hlog)).abort
  have hfault : (pmfsAbortTransaction ⟨4096, true⟩ { begunTx.trans with numUsed := 1 }).exec
      ((pmfsAddLogentry begunTx.trans (2 ^ 57) 1 leData).exec begunTx.image).1 =
      (((pmfsAddLogentry begunTx.trans (2 ^ 57) 1 leData).exec begunTx.image).1,
        .error .nullDeref) := rfl
  rw [hfault] at hexec
  cases hexec

end OpenTx

end Wpmfs.Journal
