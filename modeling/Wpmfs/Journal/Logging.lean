import Wpmfs.Journal.Transaction
import Wpmfs.Journal.Undo

/-!
# What logging does to a transaction's region

One transaction as its own thread sees it: the region it reserved, the bytes it has logged and
what they held before. Each call is verified while the rest of the system may change every
location the transaction does not own; an entry becomes part of the log by the single store to
its generation id.
-/

namespace Wpmfs.Journal

open Persist UndoLog

/-- What a transaction owns: the `len` entries from `start` on, and the bytes it has logged.
`gens` are the generations of the run, `pre` is memory as the transaction found it. -/
structure Owned where
  start : Nat
  len : Nat
  genId : UInt16
  gens : Set UInt16
  logged : Set Nat
  pre : Nat → UInt8

namespace Owned

def locs (o : Owned) : Set Loc
  | .mem a => a ∈ o.logged
  | .entry le => ∃ i < o.len, le = o.start + 64 * i
  | .header => False

variable {o : Owned} {sbi : SbInfo} {s t : Image} {u : Nat}

theorem entry_mem {i : Nat} (hi : i < o.len) : .entry (o.start + 64 * i) ∈ o.locs :=
  ⟨i, hi, rfl⟩

/-- The first `u` entries of the region are written, the first one marked as the start, and
`fin` says which are commit or abort records; the others hold nothing of this run. -/
structure Entries (o : Owned) (u : Nat) (fin : Nat → Bool) (s : Image) : Prop where
  le : u ≤ o.len
  gen : ∀ i < u, (s.area (o.start + 64 * i)).genId = o.genId
  stale : ∀ i, u ≤ i → i < o.len → (s.area (o.start + 64 * i)).genId ∉ o.gens
  isStart : ∀ i < u, (s.area (o.start + 64 * i)).isStart = decide (i = 0)
  isFinish : ∀ i < u, (s.area (o.start + 64 * i)).isFinish = fin i

/-- The log of an unfinished transaction: its entries take the logged bytes back to what they
were. -/
structure Unfinished (o : Owned) (sbi : SbInfo) (u : Nat) (s : Image) : Prop
    extends Entries o u (fun _ => false) s where
  mapped : ∀ i < u, Mapped sbi (s.area (o.start + 64 * i))
  dom : dom (logOf sbi o.genId s.area o.start u) ⊆ o.logged
  restores : Restores o.logged (logOf sbi o.genId s.area o.start u) o.pre s.mem

/-- The log of a finished transaction: the last of its entries is its commit or abort record,
and the logged bytes hold `post`. -/
structure Finished (o : Owned) (committed : Bool) (post : Nat → UInt8) (u : Nat) (s : Image) :
    Prop extends Entries o u (fun i => decide (i + 1 = u)) s where
  pos : 0 < u
  commit : ((s.area (o.start + 64 * (u - 1))).type &&& leCommit != 0) = committed
  mem : ∀ a ∈ o.logged, s.mem a = post a

theorem area_eq (hst : AgreeOn o.locs s t) {i : Nat} (hi : i < o.len) :
    t.area (o.start + 64 * i) = s.area (o.start + 64 * i) :=
  (hst.entry _ (entry_mem hi)).symm

theorem Entries.congr {fin : Nat → Bool} (h : o.Entries u fin s) (hst : AgreeOn o.locs s t) :
    o.Entries u fin t := by
  refine ⟨h.le, fun i hi => ?_, fun i hu hi => ?_, fun i hi => ?_, fun i hi => ?_⟩
  · rw [area_eq hst (hi.trans_le h.le), h.gen i hi]
  · rw [area_eq hst hi]
    exact h.stale i hu hi
  · rw [area_eq hst (hi.trans_le h.le), h.isStart i hi]
  · rw [area_eq hst (hi.trans_le h.le), h.isFinish i hi]

theorem Unfinished.congr (h : o.Unfinished sbi u s) (hst : AgreeOn o.locs s t) :
    o.Unfinished sbi u t := by
  have hlog : logOf sbi o.genId t.area o.start u = logOf sbi o.genId s.area o.start u :=
    logOf_congr fun i hi => area_eq hst (hi.trans_le h.le)
  refine ⟨h.toEntries.congr hst, fun i hi => ?_, hlog ▸ h.dom,
    hlog ▸ h.restores.congr fun a ha _ => (hst.mem a ha).symm⟩
  rw [area_eq hst (hi.trans_le h.le)]
  exact h.mapped i hi

theorem Finished.congr {committed : Bool} {post : Nat → UInt8}
    (h : o.Finished committed post u s) (hst : AgreeOn o.locs s t) :
    o.Finished committed post u t := by
  have hpos := h.pos
  have hle := h.le
  refine ⟨h.toEntries.congr hst, hpos, ?_, fun a ha => (hst.mem a ha).symm.trans (h.mem a ha)⟩
  rw [area_eq hst (by omega), h.commit]

/-- A store of the thread: it stays inside what the transaction owns, and `I` holds after it. -/
def Guar (o : Owned) (I : Image → Prop) (s t : Image) : Prop := AgreeOn o.locsᶜ s t ∧ I t

/-- A store to an entry of the region stays inside what the transaction owns. -/
theorem agreeOn_entry {i : Nat} (hi : i < o.len) (f : Field) :
    AgreeOn o.locsᶜ s (apply s (.entry (o.start + 64 * i) f)) := by
  refine ⟨fun _ _ => rfl, fun le hle => ?_, fun _ => ⟨rfl, rfl, rfl⟩⟩
  have hne : le ≠ o.start + 64 * i := fun h => hle ⟨i, hi, h⟩
  simp [Function.update_of_ne hne]

theorem area_fill {i j : Nat} {f : Field} (hij : i ≠ j) :
    (apply s (.entry (o.start + 64 * j) f)).area (o.start + 64 * i) =
      s.area (o.start + 64 * i) :=
  Function.update_of_ne (by omega) _ _

/-- Filling the fields of an entry that is not valid yet keeps the entries. -/
theorem Entries.fill {fin : Nat → Bool} (h : o.Entries u fin s) {j : Nat} (hu : u ≤ j)
    {f : Field} (hf : ∀ v, f ≠ .genId v) :
    o.Entries u fin (apply s (.entry (o.start + 64 * j) f)) := by
  refine ⟨h.le, fun i hi => ?_, fun i hui hi => ?_, fun i hi => ?_, fun i hi => ?_⟩
  · rw [area_fill (by omega), h.gen i hi]
  · by_cases hij : i = j
    · subst hij
      have hg : ((s.area (o.start + 64 * i)).set f).genId = (s.area (o.start + 64 * i)).genId := by
        cases f with
        | genId v => exact absurd rfl (hf v)
        | _ => rfl
      simpa [hg] using h.stale i hui hi
    · rw [area_fill hij]
      exact h.stale i hui hi
  · rw [area_fill (by omega), h.isStart i hi]
  · rw [area_fill (by omega), h.isFinish i hi]

theorem Unfinished.fill (h : o.Unfinished sbi u s) {j : Nat} (hu : u ≤ j) {f : Field}
    (hf : ∀ v, f ≠ .genId v) :
    o.Unfinished sbi u (apply s (.entry (o.start + 64 * j) f)) := by
  have hlog : logOf sbi o.genId (apply s (.entry (o.start + 64 * j) f)).area o.start u =
      logOf sbi o.genId s.area o.start u := logOf_congr fun i hi => area_fill (by omega)
  refine ⟨h.toEntries.fill hu hf, fun i hi => ?_, hlog ▸ h.dom, hlog ▸ h.restores⟩
  rw [area_fill (by omega)]
  exact h.mapped i hi

/-- The store to the generation id makes entry `u` valid. -/
theorem Entries.publish {fin fin' : Nat → Bool} (h : o.Entries u fin s) (hu : u < o.len)
    (hs : (s.area (o.start + 64 * u)).isStart = decide (u = 0))
    (hf : (s.area (o.start + 64 * u)).isFinish = fin' u) (hfin : ∀ i < u, fin' i = fin i) :
    o.Entries (u + 1) fin' (apply s (.entry (o.start + 64 * u) (.genId o.genId))) := by
  refine ⟨hu, fun i hi => ?_, fun i hui hi => ?_, fun i hi => ?_, fun i hi => ?_⟩
  · by_cases hiu : i = u
    · subst hiu
      simp [LogEntry.set]
    · rw [area_fill hiu, h.gen i (by omega)]
  · rw [area_fill (by omega)]
    exact h.stale i (by omega) hi
  · by_cases hiu : i = u
    · subst hiu
      simpa [LogEntry.set, LogEntry.isStart] using hs
    · rw [area_fill hiu, h.isStart i (by omega)]
  · by_cases hiu : i = u
    · subst hiu
      simpa [LogEntry.set, LogEntry.isFinish] using hf
    · rw [area_fill hiu, h.isFinish i (by omega), hfin i (by omega)]

theorem logOf_publish : logOf sbi o.genId (apply s (.entry (o.start + 64 * u) (.genId o.genId))).area
    o.start (u + 1) = logOf sbi o.genId s.area o.start u ++
      [entryPatch sbi (s.area (o.start + 64 * u))] := by
  rw [logOf_succ, logOf_congr fun i hi => area_fill (by omega)]
  simp only [validPatch, apply_entry, Function.update_self, LogEntry.set, beq_self_eq_true,
    if_true]
  rfl

/-- A data entry that records current bytes joins the log. -/
theorem Unfinished.publish (h : o.Unfinished sbi u s) (hu : u < o.len)
    (hs : (s.area (o.start + 64 * u)).isStart = decide (u = 0))
    (hf : (s.area (o.start + 64 * u)).isFinish = false)
    (hm : Mapped sbi (s.area (o.start + 64 * u)))
    (hd : ∀ a v, entryPatch sbi (s.area (o.start + 64 * u)) a = some v →
      a ∈ o.logged ∧ v = s.mem a) :
    o.Unfinished sbi (u + 1) (apply s (.entry (o.start + 64 * u) (.genId o.genId))) := by
  refine ⟨h.toEntries.publish hu hs hf fun _ _ => rfl, fun i hi => ?_, ?_, ?_⟩
  · by_cases hiu : i = u
    · subst hiu
      simpa [LogEntry.set, Mapped] using hm
    · rw [area_fill hiu]
      exact h.mapped i (by omega)
  · rw [logOf_publish]
    intro a ha
    rcases mem_dom_append.1 ha with ha | ha
    · exact h.dom ha
    · obtain ⟨v, hv⟩ := Option.isSome_iff_exists.1 (mem_dom_singleton.1 ha)
      exact (hd a v hv).1
  · rw [logOf_publish]
    exact h.restores.log fun a v hv => (hd a v hv).2

/-- A commit or abort record ends the transaction. -/
theorem Unfinished.finish (h : o.Unfinished sbi u s) (hu : u < o.len) {committed : Bool}
    {post : Nat → UInt8}
    (hs : (s.area (o.start + 64 * u)).isStart = decide (u = 0))
    (hf : (s.area (o.start + 64 * u)).isFinish = true)
    (hc : ((s.area (o.start + 64 * u)).type &&& leCommit != 0) = committed)
    (hm : ∀ a ∈ o.logged, s.mem a = post a) :
    o.Finished committed post (u + 1) (apply s (.entry (o.start + 64 * u) (.genId o.genId))) := by
  refine ⟨h.toEntries.publish hu hs (by simpa using hf) fun i hi => ?_, by omega, ?_, hm⟩
  · simp [show i ≠ u by omega]
  · simpa [LogEntry.set] using hc

/-- Filling entry `j`: the log is still `l`, the logged bytes still hold `m`, and the fields
written so far are as `P` says. -/
structure Filling (o : Owned) (sbi : SbInfo) (u j : Nat) (l : List (Patch Nat UInt8))
    (m : Nat → UInt8) (P : LogEntry → Prop) (s : Image) : Prop where
  log : o.Unfinished sbi u s
  log_eq : logOf sbi o.genId s.area o.start u = l
  mem : ∀ a ∈ o.logged, s.mem a = m a
  fields : P (s.area (o.start + 64 * j))

variable {j : Nat} {l : List (Patch Nat UInt8)} {m : Nat → UInt8} {P : LogEntry → Prop}
  {I : Image → Prop}

theorem Filling.congr (h : o.Filling sbi u j l m P s) (hj : j < o.len)
    (hst : AgreeOn o.locs s t) : o.Filling sbi u j l m P t :=
  ⟨h.log.congr hst,
    (logOf_congr fun _ hi => area_eq hst (hi.trans_le h.log.le)).trans h.log_eq,
    fun a ha => (hst.mem a ha).symm.trans (h.mem a ha), by rw [area_eq hst hj]; exact h.fields⟩

/-- One store to a field of the entry being filled. -/
theorem safe_setField (P' : LogEntry → Prop) (hj : j < o.len) (hu : u ≤ j)
    (hI : ∀ t, o.Unfinished sbi u t → I t) {f : Image → Field} (hf : ∀ s v, f s ≠ .genId v)
    (hP : ∀ t, o.Filling sbi u j l m P t → P' ((t.area (o.start + 64 * j)).set (f t)))
    (h : o.Filling sbi u j l m P s) :
    (setField (o.start + 64 * j) f).Safe (AgreeOn o.locs) (o.Guar I)
      (fun _ => o.Filling sbi u j l m P') s := by
  intro t ht
  have h := h.congr hj ht
  have hnext := h.log.fill hu (hf t)
  refine ⟨⟨agreeOn_entry hj _, hI _ hnext⟩, fun v hv =>
    Filling.congr ⟨hnext, (logOf_congr fun _ _ => area_fill (by omega)).trans h.log_eq, h.mem,
      ?_⟩ hj hv⟩
  simpa using hP t h

end Owned

/-- The bytes of the range have addresses a log entry can name. -/
def Addressable (sbi : SbInfo) (addr size : Nat) : Prop :=
  ∀ i < size, wpmfsGetBlock sbi (addr + i) = some (addr + i)

/-- The fields of the entry `pmfs_add_logentry` writes in iteration `i`, before its type. -/
def BodyFields (addr size num i : Nat) (m : Nat → UInt8) (n : Nat) (e : LogEntry) : Prop :=
  e.addrOffset = (if size = 0 then 0 else addr) + 48 * i ∧
    e.size = UInt8.ofNat (leSize size num i) ∧ ∀ k < n, e.data k = m (addr + 48 * i + k)

theorem leSize_le {size num i : Nat} (hnum : size ≤ 48 * num) (hi : i < num) :
    leSize size num i ≤ 48 := by
  unfold leSize
  split <;> omega

namespace Owned

variable {o : Owned} {sbi : SbInfo} {s t : Image} {u : Nat} {m : Nat → UInt8} {I : Image → Prop}
variable {l : List (Patch Nat UInt8)} {trans : Transaction} {addr size num i : Nat} {type : UInt8}

/-- An iteration of `pmfs_add_logentry` up to the store that makes its entry valid, which `Q`
describes. -/
theorem safe_addLogentryBody {Q : Image → Prop} (hstart : trans.start = o.start)
    (hgen : trans.genId = o.genId) (hlen : trans.numUsed + i < o.len)
    (hsize : size ≤ 48 * num) (hfull : 48 * (num - 1) ≤ size) (hi : i < num)
    (hrange : ∀ k < size, addr + k ∈ o.logged)
    (hI : ∀ t, o.Unfinished sbi (trans.numUsed + i) t → I t)
    (hQ : ∀ t t', AgreeOn o.locs t t' → Q t → Q t')
    (hpub : ∀ t, o.Filling sbi (trans.numUsed + i) (trans.numUsed + i) l m
        (fun e => BodyFields addr size num i m (leSize size num i) e ∧
          e.type = (if i = num - 1 ∧ type &&& leCommit ≠ 0 then
            (if i = 0 ∧ trans.numUsed = 0 then type ||| leStart else type) ||| leCommit
            else if i = 0 ∧ trans.numUsed = 0 then type ||| leStart else type)) t →
      I (apply t (.entry (o.start + 64 * (trans.numUsed + i)) (.genId o.genId))) ∧
      Q (apply t (.entry (o.start + 64 * (trans.numUsed + i)) (.genId o.genId))))
    (h : o.Unfinished sbi (trans.numUsed + i) s)
    (hl : logOf sbi o.genId s.area o.start (trans.numUsed + i) = l)
    (hm : ∀ a ∈ o.logged, s.mem a = m a) :
    (addLogentryBody trans addr size type num i).Safe (AgreeOn o.locs) (o.Guar I)
      (fun _ => Q) s := by
  have hle : trans.le (trans.numUsed + i) = o.start + 64 * (trans.numUsed + i) := by
    rw [Transaction.le, hstart]
  have hle48 := leSize_le hsize hi
  unfold addLogentryBody
  simp only [hle, wpmfsRegetBlockoff, hgen]
  refine Prog.Safe.bind AgreeOn.refl (safe_setField (P := fun _ => True)
    (fun e => e.addrOffset = (if size = 0 then 0 else addr) + 48 * i) hlen (le_refl _) hI
    (by simp) (fun t _ => rfl) ⟨h, hl, hm, trivial⟩) fun _ t h1 => ?_
  refine Prog.Safe.bind AgreeOn.refl (safe_setField
    (fun e => e.addrOffset = (if size = 0 then 0 else addr) + 48 * i) hlen (le_refl _) hI
    (by simp) (fun t ht => ht.fields) h1) fun _ t h2 => ?_
  refine Prog.Safe.bind AgreeOn.refl (safe_setField
    (BodyFields addr size num i m 0) hlen (le_refl _) hI
    (by simp) (fun t ht => ⟨ht.fields, rfl, by simp⟩) h2) fun _ t h3 => ?_
  -- the data bytes, copied from memory that only this transaction may change
  refine Prog.Safe.bind (Q := fun _ => o.Filling sbi (trans.numUsed + i) (trans.numUsed + i) l m
      (BodyFields addr size num i m (leSize size num i))) AgreeOn.refl (Prog.Safe.forRange
    (fun n _ => o.Filling sbi (trans.numUsed + i) (trans.numUsed + i) l m
      (BodyFields addr size num i m n)) AgreeOn.refl
    (fun n _ a b hab ha => ha.congr hlen hab) h3 fun k hk _ t ht => ?_) fun _ t h4 => ?_
  · refine safe_setField _ hlen (le_refl _) hI (by simp) (fun t ht => ?_) ht
    obtain ⟨ha, hs, hd⟩ := ht.fields
    refine ⟨ha, hs, fun k' hk' => ?_⟩
    by_cases hkk : k' = k
    · subst hkk
      have hin : 48 * i + k' < size := by
        unfold leSize at hk
        split at hk <;> omega
      have := hrange _ hin
      rw [← Nat.add_assoc] at this
      simp [LogEntry.set, ht.mem _ this]
    · simpa [LogEntry.set, Function.update_of_ne hkk] using hd k' (by omega)
  refine Prog.Safe.bind AgreeOn.refl (safe_setField
    (fun e => BodyFields addr size num i m (leSize size num i) e ∧ e.type = type)
    hlen (le_refl _) hI (by simp) (fun t ht => ⟨ht.fields, rfl⟩) h4) fun _ t h5 => ?_
  refine Prog.Safe.bind (Q := fun _ => o.Filling sbi (trans.numUsed + i) (trans.numUsed + i) l m
      (fun e => BodyFields addr size num i m (leSize size num i) e ∧
        e.type = if i = 0 ∧ trans.numUsed = 0 then type ||| leStart else type))
    AgreeOn.refl (Prog.Safe.when (fun hc => ?_) fun hc v hv => ?_) fun _ t h6 => ?_
  · refine safe_setField _ hlen (le_refl _) hI (by simp) (fun t ht => ?_) h5
    obtain ⟨hb, hty⟩ := ht.fields
    exact ⟨hb, by rw [if_pos hc, ← hty]; rfl⟩
  · rw [if_neg hc]
    exact h5.congr hlen hv
  refine Prog.Safe.bind (Q := fun _ => o.Filling sbi (trans.numUsed + i) (trans.numUsed + i) l m
      (fun e => BodyFields addr size num i m (leSize size num i) e ∧
        e.type = (if i = num - 1 ∧ type &&& leCommit ≠ 0 then
            (if i = 0 ∧ trans.numUsed = 0 then type ||| leStart else type) ||| leCommit
            else if i = 0 ∧ trans.numUsed = 0 then type ||| leStart else type)))
    AgreeOn.refl (Prog.Safe.when (fun hc => ?_) fun hc v hv => ?_) fun _ t h7 => ?_
  · refine safe_setField _ hlen (le_refl _) hI (by simp) (fun t ht => ?_) h6
    obtain ⟨hb, hty⟩ := ht.fields
    exact ⟨hb, by rw [if_pos hc, ← hty]; rfl⟩
  · rw [if_neg hc]
    exact h6.congr hlen hv
  -- the entry becomes valid
  intro v hv
  obtain ⟨hIv, hQv⟩ := hpub v (h7.congr hlen hv)
  exact ⟨⟨agreeOn_entry hlen _, hIv⟩, fun w hw => hQ _ _ hw hQv⟩

/-- The volatile transaction that belongs to the region. -/
structure Handle (o : Owned) (trans : Transaction) : Prop where
  start : trans.start = o.start
  genId : trans.genId = o.genId
  numEntries : trans.numEntries ≤ o.len

theorem numLes_leData (size : Nat) : size ≤ 48 * numLes size leData ∧
    48 * numLes size leData < size + 48 := by
  unfold numLes
  split
  · simp [leData, leCommit, leAbort, *]
  · omega

/-- A range has been logged up to its byte `n`, after the bytes the log held before. -/
def Covers (l l' : List (Patch Nat UInt8)) (addr n : Nat) : Prop :=
  ∀ a, a ∈ UndoLog.dom l ∨ (addr ≤ a ∧ a < addr + n) → a ∈ UndoLog.dom l'

/-- `pmfs_add_logentry` of a range the transaction owns. -/
theorem safe_pmfsAddLogentry (hh : o.Handle trans)
    (hfit : trans.numUsed + numLes size leData ≤ trans.numEntries)
    (haddr : Addressable sbi addr size) (hrange : ∀ k < size, addr + k ∈ o.logged)
    (h : o.Unfinished sbi trans.numUsed s) :
    (pmfsAddLogentry trans addr size leData).Safe (AgreeOn o.locs)
      (o.Guar fun t => ∃ u, o.Unfinished sbi u t)
      (fun r t => ∃ trans', r = some trans' ∧ o.Handle trans' ∧
        o.Unfinished sbi trans'.numUsed t ∧
        Covers (logOf sbi o.genId s.area o.start trans.numUsed)
          (logOf sbi o.genId t.area o.start trans'.numUsed) addr size) s := by
  obtain ⟨hs1, hs2⟩ := numLes_leData size
  have hlen := hh.numEntries
  -- after `i` entries the log covers the first `48 * i` bytes of the range
  let J : Nat → Image → Prop := fun i t => o.Unfinished sbi (trans.numUsed + i) t ∧
    (∀ a ∈ o.logged, t.mem a = s.mem a) ∧
    Covers (logOf sbi o.genId s.area o.start trans.numUsed)
      (logOf sbi o.genId t.area o.start (trans.numUsed + i)) addr (min size (48 * i))
  have hJ : ∀ i t t', AgreeOn o.locs t t' → J i t → J i t' := by
    rintro i t t' htt ⟨hu, hm, hc⟩
    refine ⟨hu.congr htt, fun a ha => (htt.mem a ha).symm.trans (hm a ha), ?_⟩
    rwa [logOf_congr fun k hk => area_eq htt (hk.trans_le hu.le)]
  unfold pmfsAddLogentry
  rw [if_neg (by omega)]
  refine Prog.Safe.bind (Q := fun _ => J (numLes size leData)) AgreeOn.refl
    (Prog.Safe.forRange (fun i _ => J i) AgreeOn.refl (fun i _ => hJ i)
      ⟨h, fun _ _ => rfl, ?_⟩ ?_) ?_
  · intro a ha
    exact ha.resolve_right (by omega)
  · intro i hi _ t ht
    have hle := leSize_le hs1 hi
    have hz : size ≠ 0 := by omega
    have hin : leSize size (numLes size leData) i + 48 * i ≤ size := by
      unfold leSize
      split <;> omega
    refine safe_addLogentryBody (m := s.mem) hh.start hh.genId (by omega) hs1 (by omega) hi hrange
      (fun t ht => ⟨_, ht⟩) (hJ (i + 1)) (fun t' ht' => ?_) ht.1 rfl ht.2.1
    obtain ⟨⟨hoff, hsz, hd⟩, hty⟩ := ht'.fields
    rw [if_neg (by simp [leData])] at hty
    -- the bytes the new entry holds
    have hpatch : ∀ a, entryPatch sbi (t'.area (o.start + 64 * (trans.numUsed + i))) a =
        if addr + 48 * i ≤ a ∧ a < addr + 48 * i + leSize size (numLes size leData) i then
          some ((t'.area (o.start + 64 * (trans.numUsed + i))).data (a - (addr + 48 * i)))
        else none := by
      intro a
      rw [entryPatch, hoff, hsz, if_neg hz, haddr (48 * i) (by omega),
        UInt8.toNat_ofNat_of_lt' (hle.trans_lt (by decide))]
    have hpub := ht'.log.publish (by omega) ?_ ?_ ?_ ?_
    · refine ⟨⟨_, hpub⟩, hpub, ht'.mem, fun a ha => ?_⟩
      rw [← Nat.add_assoc, logOf_publish, mem_dom_append, mem_dom_singleton]
      by_cases hnew : addr + 48 * i ≤ a ∧ a < addr + 48 * i + leSize size (numLes size leData) i
      · refine .inr ?_
        rw [hpatch, if_pos hnew]
        rfl
      · refine .inl ?_
        rw [ht'.log_eq]
        refine ht.2.2 a (ha.imp_right fun hr => ?_)
        unfold leSize at hnew
        split at hnew <;> omega
    · rw [LogEntry.isStart, hty]
      by_cases hz : i = 0 ∧ trans.numUsed = 0
      · rw [if_pos hz, decide_eq_true (by omega)]
        rfl
      · rw [if_neg hz, decide_eq_false (by omega)]
        rfl
    · rw [LogEntry.isFinish, hty]
      split <;> rfl
    · refine .inr ?_
      rw [hoff, if_neg hz, haddr (48 * i) (by omega)]
      rfl
    · intro a v hv
      rw [hpatch] at hv
      split at hv
      · have hmem := hrange (a - addr) (by omega)
        rw [show addr + (a - addr) = a by omega] at hmem
        refine ⟨hmem, ?_⟩
        have hda := hd (a - (addr + 48 * i)) (by omega)
        rw [show addr + 48 * i + (a - (addr + 48 * i)) = a by omega] at hda
        rw [ht'.mem a hmem, ← hda]
        exact (Option.some.inj hv).symm
      · cases hv
  · rintro _ t ht t' htt
    obtain ⟨hu, -, hc⟩ := hJ _ _ _ htt ht
    rw [min_eq_left hs1] at hc
    exact ⟨_, rfl, ⟨hh.start, hh.genId, hh.numEntries⟩, hu, hc⟩

/-- The record that ends a transaction: a commit or an abort record. -/
theorem safe_finishingEntry (hh : o.Handle trans) {committed : Bool} {post : Nat → UInt8}
    (hty : type = if committed then leCommit else leAbort)
    (hfit : trans.numUsed < trans.numEntries) (h : o.Unfinished sbi trans.numUsed s)
    (hm : ∀ a ∈ o.logged, s.mem a = post a) :
    (pmfsAddLogentry trans 0 0 type).Safe (AgreeOn o.locs)
      (o.Guar fun t => (∃ u, o.Unfinished sbi u t) ∨ ∃ u, o.Finished committed post u t)
      (fun r t => r.isSome ∧ ∃ u, o.Finished committed post u t) s := by
  have hnum : numLes 0 type = 1 := by
    subst hty
    cases committed <;> rfl
  have hlen := hh.numEntries
  unfold pmfsAddLogentry
  simp only [hnum]
  rw [if_neg (by omega)]
  refine Prog.Safe.bind (Q := fun _ t => ∃ u, o.Finished committed post u t) AgreeOn.refl ?_ ?_
  · change (addLogentryBody trans 0 0 type 1 0).Safe _ _ _ s
    refine safe_addLogentryBody (m := post) hh.start hh.genId (by omega) (by omega) (by omega)
      (by omega) (by simp) (fun t ht => .inl ⟨_, ht⟩)
      (fun t t' htt ⟨u, hu⟩ => ⟨u, hu.congr htt⟩) (fun t ht => ?_) h rfl hm
    obtain ⟨-, hty'⟩ := ht.fields
    have hfin : o.Finished committed post _ _ := ht.log.finish (by omega) ?_ ?_ ?_ ht.mem
    · exact ⟨.inr ⟨_, hfin⟩, _, hfin⟩
    · rw [LogEntry.isStart, hty', hty]
      by_cases hz : trans.numUsed = 0 <;> cases committed <;> simp [hz] <;> decide
    · rw [LogEntry.isFinish, hty', hty]
      by_cases hz : trans.numUsed = 0 <;> cases committed <;> simp [hz] <;> decide
    · rw [hty', hty]
      by_cases hz : trans.numUsed = 0 <;> cases committed <;> simp [hz] <;> decide
  · rintro _ t ⟨u, hu⟩ t' htt
    exact ⟨rfl, u, hu.congr htt⟩

/-- Storing to logged bytes keeps the log. -/
theorem Unfinished.memStore (h : o.Unfinished sbi u s)
    (hst : MemStoreIn (UndoLog.dom (logOf sbi o.genId s.area o.start u)) s t) :
    o.Unfinished sbi u t := by
  obtain ⟨a, ha, v, rfl⟩ := hst
  refine ⟨⟨h.le, h.gen, h.stale, h.isStart, h.isFinish⟩, h.mapped, h.dom,
    h.restores.congr fun b _ hb => Function.update_of_ne ?_ _ _⟩
  rintro rfl
  exact hb ha

/-- `pmfs_abort_transaction` takes the logged bytes back and writes the abort record. -/
theorem safe_pmfsAbortTransaction (hh : o.Handle trans) (hfit : trans.numUsed < trans.numEntries)
    (h : o.Unfinished sbi trans.numUsed s) :
    (pmfsAbortTransaction sbi trans).Safe (AgreeOn o.locs)
      (o.Guar fun t => (∃ u, o.Unfinished sbi u t) ∨ ∃ u, o.Finished false o.pre u t)
      (fun r t => r.isSome ∧ ∃ u, o.Finished false o.pre u t) s := by
  have hle : ∀ i, trans.le i = o.start + 64 * i := fun i => by rw [Transaction.le, hh.start]
  -- during the undo the log stays what it is and restores the bytes
  let inv : Image → Prop := fun t => o.Unfinished sbi trans.numUsed t ∧
    logOf sbi o.genId t.area o.start trans.numUsed = logOf sbi o.genId s.area o.start trans.numUsed
  have hundo : (pmfsUndoTransaction sbi trans).Safe (AgreeOn o.locs)
      (MemStoreIn (UndoLog.dom (logOf sbi o.genId s.area o.start trans.numUsed)))
      (fun _ => AgreeOn o.locs { s with
        mem := undo (logOf sbi o.genId s.area o.start trans.numUsed) s.mem }) s := by
    rw [← hh.start, ← hh.genId]
    refine safe_pmfsUndoTransaction (fun i hi => ?_) fun i hi _ => ?_
    · rw [hle]
      exact entry_mem (hi.trans_le h.le)
    · rw [hle]
      exact h.mapped i hi
  have hinv := hundo.invariant (I := inv)
    (fun hab ha => ⟨ha.1.congr hab,
      (logOf_congr fun i hi => area_eq hab (hi.trans_le h.le)).trans ha.2⟩)
    (fun hab ha => ⟨ha.1.memStore (ha.2 ▸ hab), by
      obtain ⟨_, _, _, rfl⟩ := hab
      exact ha.2⟩) ⟨h, rfl⟩
  unfold pmfsAbortTransaction
  refine Prog.Safe.bind AgreeOn.refl (Prog.Safe.mono id (fun {a b} hab => ?_) id hinv) ?_
  · obtain ⟨⟨x, hx, v, rfl⟩, hb⟩ := hab
    refine ⟨⟨fun y hy => ?_, fun _ _ => rfl, fun _ => ⟨rfl, rfl, rfl⟩⟩, .inl ⟨_, hb.1⟩⟩
    refine (Function.update_of_ne ?_ _ _).symm
    rintro rfl
    exact hy (h.dom hx)
  · rintro _ t ⟨ht, htu, -⟩
    refine safe_finishingEntry hh (show leAbort = if false then leCommit else leAbort from rfl)
      hfit htu fun a ha => ?_
    rw [← ht.mem a ha]
    exact h.restores a ha

end Owned

end Wpmfs.Journal
