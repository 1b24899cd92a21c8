import Wpmfs.Journal.Threads

/-!
# Crash atomicity of undo transactions

The invariant of a run says where each region lies, that no slot outside the written entries
belongs to a generation of the run, and, of each transaction by itself, that its entries either
take its bytes back or end in a valid commit or abort record. Every step is one store inside
what one transaction owns, so the invariant is kept thread by thread; recovery then reads it
off the image the crash leaves.
-/

namespace Wpmfs.Journal

open Persist UndoLog

namespace Owned

variable {o : Owned} {sbi : SbInfo} {mode : Mode} {post : Nat → UInt8} {s t : Image}

/-- What holds of a transaction's entries and bytes after every store. -/
def Outcome (o : Owned) (sbi : SbInfo) (post : Nat → UInt8) (s : Image) : Mode → Prop
  | .running => ∃ u, o.Unfinished sbi u s
  | .committing => (∃ u, o.Unfinished sbi u s) ∨ ∃ u, o.Finished true post u s
  | .aborting => (∃ u, o.Unfinished sbi u s) ∨ ∃ u, o.Finished false o.pre u s

/-- What holds when a call of the transaction has returned. -/
def Returned (o : Owned) (sbi : SbInfo) (post : Nat → UInt8) (r : Option Transaction)
    (s : Image) : Mode → Prop
  | .running => ∃ trans, r = some trans ∧ o.Handle trans ∧ o.Unfinished sbi trans.numUsed s ∧
      o.logged ⊆ UndoLog.dom (logOf sbi o.genId s.area o.start trans.numUsed)
  | .committing => ∃ u, o.Finished true post u s
  | .aborting => ∃ u, o.Finished false o.pre u s

theorem Outcome.congr (h : o.Outcome sbi post s mode) (hst : AgreeOn o.locs s t) :
    o.Outcome sbi post t mode := by
  cases mode with
  | running => exact h.imp fun u hu => hu.congr hst
  | committing => exact h.imp (.imp fun u hu => hu.congr hst) (.imp fun u hu => hu.congr hst)
  | aborting => exact h.imp (.imp fun u hu => hu.congr hst) (.imp fun u hu => hu.congr hst)

/-- A transaction in the state `s`, with `call` still to run. -/
structure Ok (o : Owned) (sbi : SbInfo) (mode : Mode) (post : Nat → UInt8)
    (call : JProg (Option Transaction)) (s : Image) : Prop where
  safe : call.Safe (AgreeOn o.locs) (o.Guar fun t => o.Outcome sbi post t mode)
    (fun r t => o.Returned sbi post r t mode) s
  outcome : o.Outcome sbi post s mode

variable {call : JProg (Option Transaction)}

theorem Ok.congr (h : o.Ok sbi mode post call s) (hst : AgreeOn o.locs s t) :
    o.Ok sbi mode post call t :=
  ⟨h.safe.env (fun h g => h.trans g) hst, h.outcome.congr hst⟩

/-- A finished transaction gives up bytes that others log later. -/
theorem Ok.shrink {r : Option Transaction} (h : o.Ok sbi mode post (.ret r) s)
    (hmode : mode ≠ .running) {bytes : Set Nat} (hb : bytes ⊆ o.logged) :
    { o with logged := bytes }.Ok sbi mode post (.ret r) s := by
  have hr := h.safe s (AgreeOn.refl s)
  have hshrink : ∀ {committed post u t}, o.Finished committed post u s →
      AgreeOn { o with logged := bytes }.locs s t →
      { o with logged := bytes }.Finished committed post u t := by
    intro committed post u t hf hst
    refine Finished.congr ?_ hst
    exact ⟨⟨hf.le, hf.gen, hf.stale, hf.isStart, hf.isFinish⟩, hf.pos, hf.commit,
      fun a ha => hf.mem a (hb ha)⟩
  cases mode with
  | running => exact absurd rfl hmode
  | committing =>
    obtain ⟨u, hu⟩ := hr
    exact ⟨fun t ht => ⟨u, hshrink hu ht⟩, .inr ⟨u, hshrink hu (AgreeOn.refl s)⟩⟩
  | aborting =>
    obtain ⟨u, hu⟩ := hr
    exact ⟨fun t ht => ⟨u, hshrink hu ht⟩, .inr ⟨u, hshrink hu (AgreeOn.refl s)⟩⟩

end Owned

/-- The bytes of transaction `i` that no later transaction has logged. -/
def System.bytes (s : System) (i : Nat) : Set Nat :=
  {a | a ∈ s.logged i ∧ ∀ j, i < j → a ∉ s.logged j}

/-- What transaction `i` owns in a run that started in the generation `genId`. -/
def System.owned (s : System) (genId : UInt16) (i : Nat) (tx : Tx) : Owned where
  start := tx.span.start
  len := tx.numEntries
  genId := tx.span.genId
  gens := {genId, nextGenId genId}
  logged := s.bytes i
  pre := tx.pre

/-- The invariant of a run from the image `init`. -/
structure Inv (sbi : SbInfo) (init : Image) (s : System) : Prop where
  layout : LaidOut sbi init.head init.genId (s.txs.map Tx.span) s.image
  unlocked : s.lock = none →
    Layout sbi init.head init.genId (s.txs.map Tx.span) s.image.tail s.image.genId
  locked : ∀ len p, s.lock = some (len, p) → p.Safe (AgreeOn {.header})
    (fun t t' => AgreeOn {.header}ᶜ t t' ∧
      LaidOut sbi init.head init.genId (s.txs.map Tx.span) t')
    (fun r t => ∃ trans, r = some trans ∧ trans.numUsed = 0 ∧ trans.numEntries ≤ len ∧
      trans.numEntries < 2 ^ 16 ∧ t.head = init.head ∧ Layout sbi init.head init.genId
        (s.txs.map Tx.span ++ [⟨trans.start, len, trans.genId⟩]) t.tail t.genId) s.image
  numEntries : ∀ tx ∈ s.txs, tx.numEntries ≤ tx.span.len ∧ tx.numEntries < 2 ^ 16
  /-- A slot that is no transaction's entry is as the run found it. -/
  stale : ∀ le < sbi.jsize, 64 ∣ le →
    (∀ tx ∈ s.txs, ∀ i < tx.numEntries, le ≠ tx.span.start + 64 * i) →
    (s.image.area le).genId ∉ ({init.genId, nextGenId init.genId} : Set UInt16)
  tx : ∀ i tx, s.txs[i]? = some tx →
    (s.owned init.genId i tx).Ok sbi tx.mode tx.post tx.call s.image
  rivals : ∀ i j (tx tx' : Tx), i < j → s.txs[i]? = some tx → s.txs[j]? = some tx' → ¬tx.Done →
    i ∈ tx'.rivals
  /-- A transaction that has not ended shares no byte with a later one. -/
  apart : ∀ i j tx, i < j → s.txs[i]? = some tx → ¬tx.Done → Disjoint tx.logged (s.logged j)
  /-- A byte that no transaction open at the same time has logged is as the transaction found
  it, until it logs the byte itself. -/
  pre : ∀ i tx, s.txs[i]? = some tx → ¬tx.Done → ∀ a ∉ tx.logged,
    (∀ j, j ≠ i → Overlap i tx j → a ∉ s.logged j) → s.image.mem a = tx.pre a
  untouched : ∀ a, (∀ i, a ∉ s.logged i) → s.image.mem a = init.mem a

section

variable {sbi : SbInfo} {init t : Image} {s : System} {i j : Nat} {tx tx' new : Tx}

theorem logged_eq (h : s.txs[i]? = some tx) : s.logged i = tx.logged := by
  simp [System.logged, h]

theorem getElem?_set_tx (h : s.txs[i]? = some tx) (new : Tx) (j : Nat) :
    (s.txs.set i new)[j]? = if j = i then some new else s.txs[j]? := by
  obtain ⟨hi, -⟩ := List.getElem?_eq_some_iff.1 h
  by_cases hj : j = i
  · subst hj
    simp [hi]
  · simp [hj, List.getElem?_set_ne (Ne.symm hj)]

theorem mem_set_tx (h : s.txs[i]? = some tx) {x : Tx} (hx : x ∈ s.txs.set i new) :
    x = new ∨ x ∈ s.txs := by
  obtain ⟨j, hj⟩ := List.mem_iff_getElem?.1 hx
  rw [getElem?_set_tx h] at hj
  split at hj
  · exact .inl (Option.some.inj hj).symm
  · exact .inr (List.mem_of_getElem? hj)

/-- Two states of one transaction that differ in its current call only. -/
structure Tx.Same (tx new : Tx) : Prop where
  span : new.span = tx.span
  numEntries : new.numEntries = tx.numEntries
  logged : new.logged = tx.logged
  pre : new.pre = tx.pre
  rivals : new.rivals = tx.rivals

theorem map_span_set (h : s.txs[i]? = some tx) (hs : new.span = tx.span) :
    (s.txs.set i new).map Tx.span = s.txs.map Tx.span := by
  refine List.ext_getElem? fun j => ?_
  rw [List.getElem?_map, List.getElem?_map, getElem?_set_tx h]
  split
  · subst_vars
    simp [h, hs]
  · rfl

/-- A slot that is no entry of the new transactions was none of the old ones. -/
theorem entries_set (h : s.txs[i]? = some tx) (hs : new.span = tx.span)
    (hn : new.numEntries = tx.numEntries) {le : Nat}
    (hne : ∀ x ∈ s.txs.set i new, ∀ k < x.numEntries, le ≠ x.span.start + 64 * k) :
    ∀ x ∈ s.txs, ∀ k < x.numEntries, le ≠ x.span.start + 64 * k := by
  intro x hx k hk
  obtain ⟨m, hm⟩ := List.mem_iff_getElem?.1 hx
  by_cases hmi : m = i
  · subst hmi
    rw [h] at hm
    cases hm
    rw [← hs]
    exact hne new (List.mem_of_getElem? (i := m) (by rw [getElem?_set_tx h, if_pos rfl])) k
      (hn ▸ hk)
  · exact hne x
      (List.mem_of_getElem? (i := m) (by rw [getElem?_set_tx h, if_neg hmi, hm])) k hk

theorem logged_set (h : s.txs[i]? = some tx) (hl : new.logged = tx.logged) (j : Nat) :
    System.logged { s with image := t, txs := s.txs.set i new } j = s.logged j := by
  unfold System.logged
  rw [getElem?_set_tx h]
  split
  · subst_vars
    simp [h, hl]
  · rfl

theorem bytes_set (h : s.txs[i]? = some tx) (hl : new.logged = tx.logged) (j : Nat) :
    System.bytes { s with image := t, txs := s.txs.set i new } j = s.bytes j := by
  simp only [System.bytes, logged_set h hl]

theorem Inv.bytes_eq (hinv : Inv sbi init s) (h : s.txs[i]? = some tx) (hd : ¬tx.Done) :
    s.bytes i = tx.logged := by
  ext a
  rw [System.bytes, Set.mem_ofPred_eq, logged_eq h]
  exact ⟨fun ha => ha.1, fun ha =>
    ⟨ha, fun j hij hj => Set.disjoint_left.1 (hinv.apart i j tx hij h hd) ha hj⟩⟩

theorem Span.Apart.symm {x y : Span} (h : x.Apart y) : y.Apart x := Or.symm h

theorem Inv.apart_span (hinv : Inv sbi init s) (hij : i ≠ j) (h : s.txs[i]? = some tx)
    (h' : s.txs[j]? = some tx') : tx.span.Apart tx'.span := by
  obtain ⟨pending, hl⟩ := hinv.layout.2
  have hp := (List.pairwise_append.1 hl.pairwise).1
  rw [List.pairwise_map, List.pairwise_iff_getElem] at hp
  obtain ⟨hi, rfl⟩ := List.getElem?_eq_some_iff.1 h
  obtain ⟨hj, rfl⟩ := List.getElem?_eq_some_iff.1 h'
  rcases lt_or_gt_of_ne hij with hlt | hlt
  · exact hp i j hi hj hlt
  · exact (hp j i hj hi hlt).symm

/-- What two transactions own is disjoint. -/
theorem Inv.disjoint_locs (hinv : Inv sbi init s) (hij : i ≠ j) (h : s.txs[i]? = some tx)
    (h' : s.txs[j]? = some tx') (g : UInt16) : (s.owned g i tx).locs ⊆ (s.owned g j tx').locsᶜ := by
  rintro (a | le | _) hi hj
  · rcases lt_or_gt_of_ne hij with hlt | hlt
    · exact hi.2 j hlt hj.1
    · exact hj.2 i hlt hi.1
  · obtain ⟨x, hx, rfl⟩ := hi
    obtain ⟨y, hy, he⟩ := hj
    have hlen := (hinv.numEntries tx (List.mem_of_getElem? h)).1
    have hlen' := (hinv.numEntries tx' (List.mem_of_getElem? h')).1
    simp only [System.owned] at hx hy he
    rcases hinv.apart_span hij h h' with ha | ha <;> omega
  · exact hi

/-- A step of one thread inside what its transaction owns keeps the invariant. -/
theorem Inv.frame (hinv : Inv sbi init s) (h : s.txs[i]? = some tx) (hd : ¬tx.Done)
    (hst : AgreeOn (s.owned init.genId i tx).locsᶜ s.image t) (hsame : tx.Same new)
    (hok : (s.owned init.genId i tx).Ok sbi new.mode new.post new.call t) :
    Inv sbi init { s with image := t, txs := s.txs.set i new } := by
  have hbytes := hinv.bytes_eq h hd
  have hheader : AgreeOn {.header} s.image t := hst.mono (by rintro _ rfl; exact id)
  obtain ⟨h1, h2, h3⟩ := hheader.header rfl
  have hmem : ∀ a ∉ tx.logged, s.image.mem a = t.mem a :=
    fun a ha => hst.mem a fun hc => ha (hbytes ▸ hc)
  have hspan := map_span_set h hsame.span
  have hlogged : ∀ k, System.logged { s with image := t, txs := s.txs.set i new } k = s.logged k :=
    logged_set h hsame.logged
  have hbytes' : ∀ k, System.bytes { s with image := t, txs := s.txs.set i new } k = s.bytes k :=
    bytes_set h hsame.logged
  have hget := getElem?_set_tx h new
  -- a transaction that has not ended afterwards had not ended before
  have hback : ∀ (k : Nat) (x : Tx), (s.txs.set i new)[k]? = some x → ¬x.Done →
      ∃ y, s.txs[k]? = some y ∧ ¬y.Done ∧ y.Same x := by
    intro k x hx hxd
    rw [hget] at hx
    split at hx
    · subst_vars
      cases hx
      exact ⟨tx, h, hd, hsame⟩
    · exact ⟨x, hx, hxd, rfl, rfl, rfl, rfl, rfl⟩
  refine ⟨?_, ?_, ?_, ?_, ?_, ?_, ?_, ?_, ?_, ?_⟩
  · obtain ⟨hh, pending, hl⟩ := hinv.layout
    exact ⟨h1.symm.trans hh, pending, by rw [hspan, ← h2, ← h3]; exact hl⟩
  · intro hlock
    rw [hspan, ← h2, ← h3]
    exact hinv.unlocked hlock
  · intro len p hlock
    rw [hspan]
    exact (hinv.locked len p hlock).env (fun h g => h.trans g) hheader
  · intro x hx
    rcases mem_set_tx h hx with rfl | hx
    · rw [hsame.numEntries, hsame.span]
      exact hinv.numEntries tx (List.mem_of_getElem? h)
    · exact hinv.numEntries x hx
  · intro le hle hdvd hne
    have hne' := entries_set h hsame.span hsame.numEntries hne
    rw [← hst.entry le]
    · exact hinv.stale le hle hdvd hne'
    · rintro ⟨k, hk, rfl⟩
      exact hne' tx (List.mem_of_getElem? h) k hk rfl
  · intro k x hx
    rw [hget] at hx
    split at hx
    · subst_vars
      cases hx
      simp only [System.owned, hbytes', hsame.span, hsame.numEntries, hsame.pre]
      exact hok
    · rename_i hki
      have hagree := hst.mono (hinv.disjoint_locs hki hx h init.genId)
      simp only [System.owned, hbytes']
      exact (hinv.tx k x hx).congr hagree
  · intro k j x y hkj hx hy hxd
    obtain ⟨x', hx', hxd', -⟩ := hback k x hx hxd
    rw [hget] at hy
    split at hy
    · subst_vars
      cases hy
      rw [hsame.rivals]
      exact hinv.rivals k _ x' tx hkj hx' h hxd'
    · exact hinv.rivals k j x' y hkj hx' hy hxd'
  · intro k j x hkj hx hxd
    obtain ⟨x', hx', hxd', hs⟩ := hback k x hx hxd
    rw [hs.logged, hlogged]
    exact hinv.apart k j x' hkj hx' hxd'
  · intro k x hx hxd a ha hrivals
    obtain ⟨x', hx', hxd', hs⟩ := hback k x hx hxd
    rw [hs.logged] at ha
    rw [hs.pre, ← hinv.pre k x' hx' hxd' a ha fun j hj ho => ?_]
    · refine (hmem a fun hai => ?_).symm
      by_cases hik : k = i
      · subst hik
        rw [h] at hx'
        cases hx'
        exact ha hai
      -- the two transactions were open at the same time
      · have hover : Overlap k x i := by
          rcases lt_or_gt_of_ne hik with hlt | hlt
          · exact .inl hlt
          · exact .inr (hs.rivals ▸ hinv.rivals i k tx x' hlt h hx' hd)
        exact hrivals i (Ne.symm hik) hover (by rw [hlogged, logged_eq h]; exact hai)
    · rw [← hlogged]
      exact hrivals j hj (ho.imp_right fun h => hs.rivals ▸ h)
  · intro a ha
    simp only [hlogged] at ha
    rw [← hinv.untouched a ha]
    exact (hmem a (logged_eq h ▸ ha i)).symm

theorem set_self (h : s.txs[i]? = some tx) : s.txs.set i tx = s.txs := by
  refine List.ext_getElem? fun k => ?_
  rw [getElem?_set_tx h]
  split
  · subst_vars
    exact h.symm
  · rfl

theorem not_done_of_running (h : tx.mode = .running) : ¬tx.Done := fun hd => hd.1 h

/-- One action of the call a transaction is in. -/
theorem Inv.act (hinv : Inv sbi init s) (h : s.txs[i]? = some tx) :
    Inv sbi init { s with
      image := (tx.call.next s.image).1
      txs := s.txs.set i { tx with call := (tx.call.next s.image).2 } } := by
  by_cases hd : tx.Done
  · -- nothing is left to do
    obtain ⟨-, r, hr⟩ := hd
    have hsame : { tx with call := (tx.call.next s.image).2 } = tx := by
      rw [hr]
      simp only [Prog.next]
      rw [← hr]
    rw [hsame, set_self h, hr]
    exact hinv
  · have hok := hinv.tx i tx h
    obtain ⟨hsafe, hcase⟩ := hok.safe.next AgreeOn.refl
    rcases hcase with he | ⟨hst, hout⟩
    · rw [he] at hsafe ⊢
      exact hinv.frame h hd (AgreeOn.refl _) ⟨rfl, rfl, rfl, rfl, rfl⟩ ⟨hsafe, hok.outcome⟩
    · exact hinv.frame h hd hst ⟨rfl, rfl, rfl, rfl, rfl⟩ ⟨hsafe, hout⟩

/-- What is known of a transaction between two of its calls. -/
theorem Inv.idle (hinv : Inv sbi init s) (h : s.txs[i]? = some tx) (hmode : tx.mode = .running)
    {trans : Transaction} (hcall : tx.call = .ret (some trans)) :
    (s.owned init.genId i tx).Handle trans ∧
      (s.owned init.genId i tx).Unfinished sbi trans.numUsed s.image ∧
      tx.logged ⊆ dom (logOf sbi tx.span.genId s.image.area tx.span.start trans.numUsed) := by
  have hok := (hinv.tx i tx h).safe
  rw [hmode, hcall] at hok
  obtain ⟨trans', he, hh, hu, hd⟩ := hok s.image (AgreeOn.refl _)
  cases he
  refine ⟨hh, hu, ?_⟩
  rw [← hinv.bytes_eq h (not_done_of_running hmode)]
  exact hd

/-- A store to a logged byte. -/
theorem Inv.store (hinv : Inv sbi init s) (h : s.txs[i]? = some tx) (hmode : tx.mode = .running)
    {trans : Transaction} (hcall : tx.call = .ret (some trans)) {a : Nat} (ha : a ∈ tx.logged)
    (v : UInt8) :
    Inv sbi init { s with image := { s.image with mem := Function.update s.image.mem a v } } := by
  have hd := not_done_of_running hmode
  obtain ⟨hh, hu, hdom⟩ := hinv.idle h hmode hcall
  have hu' := hu.memStore (t := { s.image with mem := Function.update s.image.mem a v })
    ⟨a, hdom ha, v, rfl⟩
  have hbytes := hinv.bytes_eq h hd
  rw [← set_self h]
  refine hinv.frame h hd ?_ ⟨rfl, rfl, rfl, rfl, rfl⟩ ?_
  · refine ⟨fun b hb => (Function.update_of_ne ?_ _ _).symm, fun _ _ => rfl,
      fun _ => ⟨rfl, rfl, rfl⟩⟩
    rintro rfl
    exact hb (show b ∈ s.bytes i from hbytes ▸ ha)
  · rw [hmode, hcall]
    exact ⟨fun t ht => ⟨trans, rfl, hh, hu'.congr ht, by
      rw [logOf_congr fun k hk => Owned.area_eq ht (hk.trans_le hu.le)]
      exact (show s.bytes i ⊆ _ from hbytes ▸ hdom)⟩, _, hu'⟩

/-- `pmfs_commit_transaction` is called. -/
theorem Inv.commit (hinv : Inv sbi init s) (h : s.txs[i]? = some tx) (hmode : tx.mode = .running)
    {trans : Transaction} (hcall : tx.call = .ret (some trans))
    (hfit : trans.numUsed < trans.numEntries) :
    Inv sbi init { s with txs := s.txs.set i { tx with
      mode := .committing, call := pmfsCommitTransaction trans, post := s.image.mem } } := by
  obtain ⟨hh, hu, -⟩ := hinv.idle h hmode hcall
  refine hinv.frame h (not_done_of_running hmode) (AgreeOn.refl _) ⟨rfl, rfl, rfl, rfl, rfl⟩ ?_
  refine ⟨Prog.Safe.mono id id (fun h => h.2) (Owned.safe_finishingEntry hh
    (show leCommit = if true then leCommit else leAbort from rfl) hfit hu fun a _ => rfl),
    .inl ⟨_, hu⟩⟩

/-- `pmfs_abort_transaction` is called. -/
theorem Inv.abort (hinv : Inv sbi init s) (h : s.txs[i]? = some tx) (hmode : tx.mode = .running)
    {trans : Transaction} (hcall : tx.call = .ret (some trans))
    (hfit : trans.numUsed < trans.numEntries) :
    Inv sbi init { s with txs := s.txs.set i { tx with
      mode := .aborting, call := pmfsAbortTransaction sbi trans } } := by
  obtain ⟨hh, hu, -⟩ := hinv.idle h hmode hcall
  refine hinv.frame h (not_done_of_running hmode) (AgreeOn.refl _) ⟨rfl, rfl, rfl, rfl, rfl⟩ ?_
  exact ⟨Prog.Safe.mono id id (fun h => h.2) (Owned.safe_pmfsAbortTransaction hh hfit hu),
    .inl ⟨_, hu⟩⟩

/-- The transaction with more bytes logged: the new ones are still as it found them. -/
theorem Owned.Unfinished.extend {o : Owned} {u : Nat} {u' : Image}
    (h : o.Unfinished sbi u u') {bytes : Set Nat} (hb : o.logged ⊆ bytes)
    (hpre : ∀ a ∈ bytes, a ∉ o.logged → u'.mem a = o.pre a) :
    { o with logged := bytes }.Unfinished sbi u u' := by
  refine ⟨⟨h.le, h.gen, h.stale, h.isStart, h.isFinish⟩, h.mapped, h.dom.trans hb, ?_⟩
  intro a ha
  by_cases hal : a ∈ o.logged
  · exact h.restores a hal
  · exact (undo_of_notMem fun hd => hal (h.dom hd)).trans (hpre a ha hal)

/-- `pmfs_add_logentry` is called. -/
theorem Inv.log (hinv : Inv sbi init s) (h : s.txs[i]? = some tx) (hmode : tx.mode = .running)
    {trans : Transaction} (hcall : tx.call = .ret (some trans)) {addr size : Nat}
    (hfit : trans.numUsed + numLes size leData ≤ trans.numEntries)
    (haddr : Addressable sbi addr size) (hmay : s.MayLog i tx (byteRange addr size)) :
    Inv sbi init { s with txs := s.txs.set i { tx with
      call := pmfsAddLogentry trans addr size leData
      logged := tx.logged ∪ byteRange addr size } } := by
  have hd := not_done_of_running hmode
  obtain ⟨hh, hu, hdom⟩ := hinv.idle h hmode hcall
  generalize hnew : ({ tx with
    call := pmfsAddLogentry trans addr size leData
    logged := tx.logged ∪ byteRange addr size } : Tx) = new
  have hnl : new.logged = tx.logged ∪ byteRange addr size := by rw [← hnew]
  have hnd : ¬new.Done := not_done_of_running (by rw [← hnew]; exact hmode)
  have hns : new.span = tx.span := by rw [← hnew]
  have hspan := map_span_set h hns
  have hget := getElem?_set_tx h new
  have hlogged : ∀ k, System.logged { s with txs := s.txs.set i new } k =
      if k = i then tx.logged ∪ byteRange addr size else s.logged k := by
    intro k
    unfold System.logged
    rw [hget]
    split
    · simp [hnl]
    · rfl
  -- a rival of the transaction has logged none of the range
  have hfree : ∀ k (x : Tx), k ≠ i → s.txs[k]? = some x → ¬x.Done →
      Disjoint (byteRange addr size) (s.logged k) := by
    intro k x hk hx hxd
    refine hmay k hk ?_
    rcases lt_or_gt_of_ne hk with hlt | hlt
    · exact .inr (hinv.rivals k i x tx hlt hx h hxd)
    · exact .inl hlt
  have hbytes : System.bytes { s with txs := s.txs.set i new } i =
      tx.logged ∪ byteRange addr size := by
    ext a
    rw [System.bytes, Set.mem_ofPred_eq, hlogged, if_pos rfl]
    refine ⟨fun ha => ha.1, fun ha => ⟨ha, fun j hij => ?_⟩⟩
    rw [hlogged, if_neg (by omega)]
    rcases ha with ha | ha
    · exact Set.disjoint_left.1 (hinv.apart i j tx hij h hd) ha
    · exact Set.disjoint_left.1 (hmay j (by omega) (.inl hij)) ha
  have hbytes' : ∀ k ≠ i, System.bytes { s with txs := s.txs.set i new } k =
      {a | a ∈ s.bytes k ∧ (k < i → a ∉ byteRange addr size)} := by
    intro k hk
    ext a
    simp only [System.bytes, Set.mem_ofPred_eq, hlogged, if_neg hk]
    constructor
    · rintro ⟨ha, hlater⟩
      refine ⟨⟨ha, fun j hkj haj => hlater j hkj ?_⟩, fun hki haR => hlater i hki ?_⟩
      · split
        · subst_vars
          exact .inl (logged_eq h ▸ haj)
        · exact haj
      · rw [if_pos rfl]
        exact .inr haR
    · rintro ⟨⟨ha, hlater⟩, hR⟩
      refine ⟨ha, fun j hkj haj => ?_⟩
      split at haj
      · subst_vars
        rcases haj with haj | haj
        · exact hlater _ hkj (logged_eq h ▸ haj)
        · exact hR hkj haj
      · exact hlater j hkj haj
  have hback : ∀ (k : Nat) (x : Tx), (s.txs.set i new)[k]? = some x → ¬x.Done →
      ∃ y, s.txs[k]? = some y ∧ ¬y.Done ∧ y.rivals = x.rivals ∧ y.pre = x.pre ∧
        y.logged ⊆ x.logged := by
    intro k x hx hxd
    rw [hget] at hx
    split at hx
    · subst_vars
      cases hx
      exact ⟨tx, h, hd, rfl, rfl, Set.subset_union_left⟩
    · exact ⟨x, hx, hxd, rfl, rfl, subset_rfl⟩
  refine ⟨?_, ?_, ?_, ?_, ?_, ?_, ?_, ?_, ?_, ?_⟩
  · obtain ⟨hh, pending, hl⟩ := hinv.layout
    exact ⟨hh, pending, by rw [hspan]; exact hl⟩
  · intro hlock
    rw [hspan]
    exact hinv.unlocked hlock
  · intro len p hlock
    rw [hspan]
    exact hinv.locked len p hlock
  · intro x hx
    rcases mem_set_tx h hx with rfl | hx
    · rw [← hnew]
      exact hinv.numEntries tx (List.mem_of_getElem? h)
    · exact hinv.numEntries x hx
  · intro le hle hdvd hne
    exact hinv.stale le hle hdvd (entries_set h (by rw [← hnew]) (by rw [← hnew]) hne)
  · intro k x hx
    rw [hget] at hx
    split at hx
    · rename_i hki
      subst hki
      obtain rfl : new = x := Option.some.inj hx
      have hb : (s.owned init.genId k tx).logged ⊆ tx.logged ∪ byteRange addr size := by
        rw [System.owned, hinv.bytes_eq h hd]
        exact Set.subset_union_left
      have hext := hu.extend hb fun a ha han => ?_
      · simp only [System.owned, hbytes]
        rw [← hnew]
        simp only [hmode]
        refine ⟨Prog.Safe.mono id id ?_ (Owned.safe_pmfsAddLogentry
          ⟨hh.start, hh.genId, hh.numEntries⟩ hfit haddr
          (fun k hk => .inr ⟨by omega, by omega⟩) hext), _, hext⟩
        rintro r t ⟨trans', rfl, hh', hu', hc⟩
        exact ⟨trans', rfl, hh', hu', fun a ha => hc a (ha.imp_left fun ha => hdom ha)⟩
      · rw [System.owned, hinv.bytes_eq h hd] at han
        have haR : a ∈ byteRange addr size := ha.resolve_left han
        exact hinv.pre _ tx h hd a han fun j hj ho => Set.disjoint_left.1 (hmay j hj ho) haR
    · rename_i hki
      simp only [System.owned, hbytes' k hki]
      by_cases hxd : x.Done
      · obtain ⟨hmode', r, hr⟩ := hxd
        have hok := hinv.tx k x hx
        rw [hr] at hok ⊢
        exact hok.shrink hmode' fun a ha => ha.1
      · have hsame : {a | a ∈ s.bytes k ∧ (k < i → a ∉ byteRange addr size)} = s.bytes k :=
          Set.ext fun a => ⟨fun ha => ha.1, fun ha =>
            ⟨ha, fun _ haR => Set.disjoint_left.1 (hfree k x hki hx hxd) haR ha.1⟩⟩
        rw [hsame]
        exact hinv.tx k x hx
  · intro k j x y hkj hx hy hxd
    obtain ⟨x', hx', hxd', -⟩ := hback k x hx hxd
    rw [hget] at hy
    split at hy
    · subst_vars
      cases hy
      exact hinv.rivals k _ x' tx hkj hx' h hxd'
    · exact hinv.rivals k j x' y hkj hx' hy hxd'
  · intro k j x hkj hx hxd
    rw [hlogged]
    rw [hget] at hx
    split at hx
    · subst_vars
      cases hx
      rw [if_neg (by omega)]
      exact Set.disjoint_union_left.2 ⟨hinv.apart _ j tx hkj h hd, hmay j (by omega) (.inl hkj)⟩
    · rename_i hki
      split
      · subst_vars
        refine Set.disjoint_union_right.2 ⟨logged_eq h ▸ hinv.apart k _ x hkj hx hxd, ?_⟩
        exact logged_eq hx ▸ (hfree k x hki hx hxd).symm
      · exact hinv.apart k j x hkj hx hxd
  · intro k x hx hxd a ha hrivals
    obtain ⟨x', hx', hxd', hr, hp, hl⟩ := hback k x hx hxd
    rw [← hp]
    refine hinv.pre k x' hx' hxd' a (fun hal => ha (hl hal)) fun j hj ho => ?_
    have := hrivals j hj (ho.imp_right fun h => hr ▸ h)
    rw [hlogged] at this
    split at this
    · subst_vars
      exact fun haj => this (.inl (logged_eq h ▸ haj))
    · exact this
  · intro a ha
    refine hinv.untouched a fun k hak => ha k ?_
    rw [hlogged]
    split
    · subst_vars
      exact .inl (logged_eq h ▸ hak)
    · exact hak

/-- A store to the journal record concerns the layout only. -/
theorem Inv.setHeader (hinv : Inv sbi init s) (hst : AgreeOn {.header}ᶜ s.image t)
    {lock : Option (Nat × JProg (Option Transaction))}
    (hl : LaidOut sbi init.head init.genId (s.txs.map Tx.span) t)
    (hu : lock = none → Layout sbi init.head init.genId (s.txs.map Tx.span) t.tail t.genId)
    (hp : ∀ len p, lock = some (len, p) → p.Safe (AgreeOn {.header})
      (fun t t' => AgreeOn {.header}ᶜ t t' ∧
        LaidOut sbi init.head init.genId (s.txs.map Tx.span) t')
      (fun r t => ∃ trans, r = some trans ∧ trans.numUsed = 0 ∧ trans.numEntries ≤ len ∧
        trans.numEntries < 2 ^ 16 ∧ t.head = init.head ∧ Layout sbi init.head init.genId
          (s.txs.map Tx.span ++ [⟨trans.start, len, trans.genId⟩]) t.tail t.genId) t)
    (next : UInt32) : Inv sbi init ⟨t, next, lock, s.txs⟩ := by
  have hmem : ∀ a, s.image.mem a = t.mem a := fun a => hst.mem a (by simp)
  have hentry : ∀ le, s.image.area le = t.area le := fun le => hst.entry le (by simp)
  refine ⟨hl, hu, hp, hinv.numEntries, fun le hle hd hne => ?_, fun i x hx => ?_, hinv.rivals,
    hinv.apart, fun i x hx hd a ha hr => ?_, fun a ha => ?_⟩
  · rw [← hentry]
    exact hinv.stale le hle hd hne
  · exact (hinv.tx i x hx).congr (hst.mono fun l hl hh => by rw [hh] at hl; exact hl)
  · rw [← hmem]
    exact hinv.pre i x hx hd a ha hr
  · rw [← hmem]
    exact hinv.untouched a ha

/-- `pmfs_new_transaction` is called. -/
theorem Inv.begin (hinv : Inv sbi init s) (hsize : sbi.jsize ≤ 2 ^ 31)
    (hlt : init.head < sbi.jsize) (hlock : s.lock = none) {fuel max : Nat}
    (hfit : Fits sbi s.image max) (hfuel : 2 ≤ fuel) :
    Inv sbi init { s with
      lock := some (reqSize max / 64, pmfsNewTransaction sbi fuel s.nextTransactionId max)
      nextTransactionId := s.nextTransactionId + 1 } := by
  refine hinv.setHeader (AgreeOn.refl _) hinv.layout (by simp) ?_ _
  rintro len p hp
  cases hp
  exact safe_pmfsNewTransaction hsize hlt hinv.layout.1 (hinv.unlocked hlock) hfit hfuel

/-- One action of the call that holds the journal lock. -/
theorem Inv.reserve (hinv : Inv sbi init s) {len : Nat} {p : JProg (Option Transaction)}
    (hlock : s.lock = some (len, p)) : Inv sbi init { s with
      image := (p.next s.image).1, lock := some (len, (p.next s.image).2) } := by
  obtain ⟨hsafe, hcase⟩ := (hinv.locked len p hlock).next AgreeOn.refl
  rcases hcase with he | ⟨hst, hl⟩
  · rw [he] at hsafe ⊢
    refine hinv.setHeader (AgreeOn.refl _) hinv.layout (by simp) ?_ _
    rintro len p hp
    cases hp
    exact hsafe
  · refine hinv.setHeader hst hl (by simp) ?_ _
    rintro len p hp
    cases hp
    exact hsafe

/-- The reserved region becomes a transaction. -/
theorem Inv.reserved (hinv : Inv sbi init s) (hfresh : Fresh sbi init) {len : Nat}
    {trans : Transaction} (hlock : s.lock = some (len, .ret (some trans))) :
    Inv sbi init { s with lock := none, txs := s.txs ++ [s.newTx s.image len trans] } := by
  obtain ⟨trans', he, hused, hnum, hnum', hhead, hl⟩ :=
    hinv.locked len _ hlock s.image (AgreeOn.refl _)
  cases he
  generalize hnew : s.newTx s.image len trans = new
  have hspan : (s.txs ++ [new]).map Tx.span =
      s.txs.map Tx.span ++ [⟨trans.start, len, trans.genId⟩] := by
    rw [List.map_append, ← hnew]
    rfl
  have hget : ∀ j, (s.txs ++ [new])[j]? = if j = s.txs.length then some new else s.txs[j]? := by
    intro j
    split
    · subst_vars
      simp
    · rename_i hj
      rcases lt_or_gt_of_ne hj with hlt | hlt
      · rw [List.getElem?_append_left hlt]
      · rw [List.getElem?_eq_none (by simp; omega), List.getElem?_eq_none (by omega)]
  have hnl : new.logged = ∅ := by rw [← hnew]; rfl
  have hnd : ¬new.Done := not_done_of_running (by rw [← hnew]; rfl)
  have hlogged : ∀ j, System.logged { s with lock := none, txs := s.txs ++ [new] } j =
      s.logged j := by
    intro j
    unfold System.logged
    rw [hget]
    split
    · subst_vars
      simp [hnl]
    · rfl
  have hbytes : ∀ j, System.bytes { s with lock := none, txs := s.txs ++ [new] } j =
      s.bytes j := by
    intro j
    simp only [System.bytes, hlogged]
  have hnb : (System.owned { s with lock := none, txs := s.txs ++ [new] } init.genId
      s.txs.length new).logged = ∅ := by
    simp [System.owned, System.bytes, System.logged, hnl]
  have hmem : new.span ∈ s.txs.map Tx.span ++ [⟨trans.start, len, trans.genId⟩] := by
    rw [← hspan]
    simp
  have hnn : new.numEntries = trans.numEntries := by rw [← hnew]; rfl
  have hns : new.span = ⟨trans.start, len, trans.genId⟩ := by rw [← hnew]; rfl
  refine ⟨⟨hhead, [], by rw [List.append_nil, hspan]; exact hl⟩, fun _ => hspan ▸ hl, by simp,
    ?_, ?_, ?_, ?_, ?_, ?_, ?_⟩
  · intro x hx
    rcases List.mem_append.1 hx with hx | hx
    · exact hinv.numEntries x hx
    · rw [List.mem_singleton.1 hx, hnn, hns]
      exact ⟨hnum, hnum'⟩
  · exact fun le hle hd hne => hinv.stale le hle hd fun x hx => hne x (List.mem_append_left _ hx)
  · intro k x hx
    rw [hget] at hx
    split at hx
    · rename_i hk
      subst hk
      obtain rfl : new = x := Option.some.inj hx
      -- the new region holds no entry of the run
      have hbound := hl.bounds hfresh.head_lt hmem
      have hdvd := hl.dvd hfresh.dvd_head hmem
      rw [hns] at hbound hdvd
      dsimp only at hbound hdvd
      have hu : (System.owned { s with lock := none, txs := s.txs ++ [new] } init.genId
          s.txs.length new).Unfinished sbi 0 s.image := by
        refine ⟨⟨by omega, by omega, fun i _ hi => ?_, by omega, by omega⟩, by omega, by simp, ?_⟩
        · simp only [System.owned, hnn, hns] at hi ⊢
          refine hinv.stale _ (by omega) (by omega) fun x hx k hk hc => ?_
          have hap : x.span.Apart ⟨trans.start, len, trans.genId⟩ :=
            (List.pairwise_append.1 hl.pairwise).2.2 _ (List.mem_map_of_mem hx) _
              (List.mem_singleton_self _)
          have hxlen := (hinv.numEntries x hx).1
          rcases hap with hap | hap <;> dsimp only at hap <;> omega
        · intro a ha
          rw [hnb] at ha
          exact ha.elim
      have hcall : new.call = .ret (some trans) := by rw [← hnew]; rfl
      have hmode : new.mode = .running := by rw [← hnew]; rfl
      rw [hcall, hmode]
      refine ⟨fun t ht => ⟨trans, rfl, ⟨by rw [System.owned, hns], by rw [System.owned, hns],
        by rw [System.owned, hnn]⟩, hused ▸ hu.congr ht, fun a ha => ?_⟩, _, hu⟩
      rw [hnb] at ha
      exact ha.elim
    · simp only [System.owned, hbytes]
      exact hinv.tx k x hx
  · intro k j x y hkj hx hy hxd
    rw [hget] at hx hy
    have hj : k ≠ s.txs.length := by
      rintro rfl
      rw [if_neg (by omega), List.getElem?_eq_none (by omega)] at hy
      cases hy
    rw [if_neg hj] at hx
    split at hy
    · obtain rfl : new = y := Option.some.inj hy
      rw [← hnew]
      exact ⟨x, hx, hxd⟩
    · exact hinv.rivals k j x y hkj hx hy hxd
  · intro k j x hkj hx hxd
    rw [hlogged]
    rw [hget] at hx
    split at hx
    · obtain rfl : new = x := Option.some.inj hx
      rw [hnl]
      exact Set.empty_disjoint _
    · exact hinv.apart k j x hkj hx hxd
  · intro k x hx hxd a ha hr
    simp only [hlogged] at hr
    rw [hget] at hx
    split at hx
    · obtain rfl : new = x := Option.some.inj hx
      rw [← hnew]
      rfl
    · exact hinv.pre k x hx hxd a ha hr
  · intro a ha
    simp only [hlogged] at ha
    exact hinv.untouched a ha

theorem inv_init {tid : UInt32} (h : Fresh sbi init) : Inv sbi init (System.init init tid) := by
  have hl : Layout sbi init.head init.genId [] init.tail init.genId :=
    .straight ⟨h.tail_eq.symm, by simp⟩ (h.tail_eq ▸ h.head_lt)
  refine ⟨⟨rfl, [], hl⟩, fun _ => hl, by simp [System.init], by simp [System.init],
    fun le hle hd _ hm => ?_, by simp [System.init], by simp [System.init], by simp [System.init],
    by simp [System.init], fun _ _ => rfl⟩
  obtain ⟨h1, h2⟩ := h.area le hle hd
  rcases hm with hm | hm
  · exact h1 hm
  · exact h2 hm

/-- Every step keeps the invariant. -/
theorem Inv.step (hinv : Inv sbi init s) (hfresh : Fresh sbi init) {s' : System}
    (h : Step sbi s s') : Inv sbi init s' := by
  cases h with
  | begin fuel max hlock hfit hfuel =>
    exact hinv.begin hfresh.size_le hfresh.head_lt hlock hfit hfuel
  | reserve hlock hn _ =>
    have hr := hinv.reserve hlock
    rw [hn] at hr
    exact hr
  | reserved hlock hn =>
    have hr := hinv.reserve hlock
    rw [hn] at hr
    exact hr.reserved hfresh rfl
  | log addr size h hmode hcall hfit haddr hmay => exact hinv.log h hmode hcall hfit haddr hmay
  | store a v h hmode hcall ha => exact hinv.store h hmode hcall ha v
  | commit h hmode hcall hfit => exact hinv.commit h hmode hcall hfit
  | abort h hmode hcall hfit => exact hinv.abort h hmode hcall hfit
  | act h hn =>
    have ha := hinv.act h
    rw [hn] at ha
    exact ha

/-- Every state of a run meets the invariant. -/
theorem Reachable.inv (hfresh : Fresh sbi init) (h : Reachable sbi init s) : Inv sbi init s := by
  obtain ⟨tid, hrun⟩ := h
  induction hrun with
  | refl => exact inv_init hfresh
  | tail _ hstep ih => exact ih.step hfresh hstep

end

end Wpmfs.Journal
