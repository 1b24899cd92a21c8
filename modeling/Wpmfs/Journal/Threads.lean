import Wpmfs.Journal.Logging
import Wpmfs.Journal.Layout
import Mathlib.Algebra.Order.Ring.Int
import Mathlib.Algebra.Order.Ring.Nat
import Mathlib.Logic.Relation

/-!
# Runs of transactions

Any number of transactions run side by side, one store at a time, in any order. Each carries
what remains of the call it is in; reservations hold the journal lock. The run itself records,
for the statement of what recovery does, which bytes a transaction has logged and what memory
held before it began and when it committed.
-/

namespace Wpmfs.Journal

open Persist Relation

/-- Whether a transaction has been told to commit or abort. -/
inductive Mode where
  | running
  | committing
  | aborting

/-- A transaction of a run. -/
structure Tx where
  /-- The region reserved for it. -/
  span : Span
  /-- The entries `pmfs_add_logentry` lets it use. -/
  numEntries : Nat
  mode : Mode
  /-- What remains of its current call; `.ret (some trans)` between two calls. -/
  call : JProg (Option Transaction)
  /-- The bytes it has logged. -/
  logged : Set Nat
  /-- Memory when it began. -/
  pre : Nat → UInt8
  /-- Memory when it called `pmfs_commit_transaction`. -/
  post : Nat → UInt8
  /-- The transactions that had not ended when it began. -/
  rivals : Set Nat

/-- The transaction has been ended and its last call has returned. -/
def Tx.Done (tx : Tx) : Prop := tx.mode ≠ .running ∧ ∃ r, tx.call = .ret r

structure System where
  image : Image
  nextTransactionId : UInt32
  /-- The call that holds `journal_mutex`, and the number of entries it asked for. -/
  lock : Option (Nat × JProg (Option Transaction))
  /-- The transactions in the order of their reservations. -/
  txs : List Tx

/-- The transaction that comes out of a reservation of `len` entries. -/
def System.newTx (s : System) (image : Image) (len : Nat) (trans : Transaction) : Tx where
  span := ⟨trans.start, len, trans.genId⟩
  numEntries := trans.numEntries
  mode := .running
  call := .ret (some trans)
  logged := ∅
  pre := image.mem
  post := image.mem
  rivals := {j | ∃ tx, s.txs[j]? = some tx ∧ ¬tx.Done}

/-- The bytes transaction `i` has logged. -/
def System.logged (s : System) (i : Nat) : Set Nat := (s.txs[i]?.map Tx.logged).getD ∅

/-- Transaction `j` and transaction `i`, still running, were open at the same time. -/
def Overlap (i : Nat) (tx : Tx) (j : Nat) : Prop := i < j ∨ j ∈ tx.rivals

/-- Transaction `i` may log the range: no transaction open at the same time has logged any of
it. -/
def System.MayLog (s : System) (i : Nat) (tx : Tx) (range : Set Nat) : Prop :=
  ∀ j, j ≠ i → Overlap i tx j → Disjoint range (s.logged j)

/-- The bytes of a range. -/
def byteRange (addr size : Nat) : Set Nat := {a | addr ≤ a ∧ a < addr + size}

/-- One step of a run: a call begins, or one thread takes one action. -/
inductive Step (sbi : SbInfo) : System → System → Prop where
  | begin {s : System} (fuel max : Nat) : s.lock = none → Fits sbi s.image max → 2 ≤ fuel →
      Step sbi s { s with
        lock := some (reqSize max / 64, pmfsNewTransaction sbi fuel s.nextTransactionId max)
        nextTransactionId := s.nextTransactionId + 1 }
  | reserve {s : System} {len : Nat} {p p' : JProg (Option Transaction)} {image : Image} :
      s.lock = some (len, p) →
      p.next s.image = (image, p') → (∀ r, p' ≠ .ret r) →
      Step sbi s { s with image := image, lock := some (len, p') }
  | reserved {s : System} {len : Nat} {p : JProg (Option Transaction)} {image : Image}
      {trans : Transaction} : s.lock = some (len, p) →
      p.next s.image = (image, .ret (some trans)) →
      Step sbi s { s with
        image := image, lock := none, txs := s.txs ++ [s.newTx image len trans] }
  | log {s : System} {i : Nat} {tx : Tx} {trans : Transaction} (addr size : Nat) :
      s.txs[i]? = some tx → tx.mode = .running → tx.call = .ret (some trans) →
      trans.numUsed + numLes size leData ≤ trans.numEntries → Addressable sbi addr size →
      s.MayLog i tx (byteRange addr size) →
      Step sbi s { s with txs := s.txs.set i { tx with
        call := pmfsAddLogentry trans addr size leData
        logged := tx.logged ∪ byteRange addr size } }
  | store {s : System} {i : Nat} {tx : Tx} {trans : Transaction} (a : Nat) (v : UInt8) :
      s.txs[i]? = some tx → tx.mode = .running → tx.call = .ret (some trans) → a ∈ tx.logged →
      Step sbi s { s with image := { s.image with mem := Function.update s.image.mem a v } }
  | commit {s : System} {i : Nat} {tx : Tx} {trans : Transaction} :
      s.txs[i]? = some tx → tx.mode = .running → tx.call = .ret (some trans) →
      trans.numUsed < trans.numEntries →
      Step sbi s { s with txs := s.txs.set i { tx with
        mode := .committing, call := pmfsCommitTransaction trans, post := s.image.mem } }
  | abort {s : System} {i : Nat} {tx : Tx} {trans : Transaction} :
      s.txs[i]? = some tx → tx.mode = .running → tx.call = .ret (some trans) →
      trans.numUsed < trans.numEntries →
      Step sbi s { s with txs := s.txs.set i { tx with
        mode := .aborting, call := pmfsAbortTransaction sbi trans } }
  | act {s : System} {i : Nat} {tx : Tx} {image : Image} {call : JProg (Option Transaction)} :
      s.txs[i]? = some tx →
      tx.call.next s.image = (image, call) →
      Step sbi s { s with image := image, txs := s.txs.set i { tx with call := call } }

/-- A call of a transaction that nobody interrupts. -/
theorem Step.call {sbi : SbInfo} {s : System} {i : Nat} {tx : Tx} {t : Image}
    {p : JProg (Option Transaction)} {r : Option Transaction} (h : s.txs[i]? = some tx)
    (he : p.exec s.image = (t, .ok r)) :
    ReflTransGen (Step sbi) { s with txs := s.txs.set i { tx with call := p } }
      { s with image := t, txs := s.txs.set i { tx with call := .ret r } } := by
  have hi := (List.getElem?_eq_some_iff.1 h).1
  induction p generalizing s with
  | ret a =>
    cases he
    exact .refl
  | fault e => cases he
  | act g k ih =>
    have hk := ih (s := { s with image := apply s.image (g s.image) }) h he hi
    refine .head (Step.act (i := i) (List.getElem?_set_self hi) rfl) ?_
    simpa using hk
  | get k ih =>
    have hk := ih s.image (s := s) h he hi
    refine .head (Step.act (i := i) (List.getElem?_set_self hi) rfl) ?_
    simpa using hk

/-- A reservation that nobody interrupts. -/
theorem Step.reservation {sbi : SbInfo} {s : System} {len : Nat} {t : Image}
    {p : JProg (Option Transaction)} {trans : Transaction}
    (he : p.exec s.image = (t, .ok (some trans))) :
    ReflTransGen (Step sbi) { s with lock := some (len, p) }
      { s with image := t, lock := none, txs := s.txs ++ [s.newTx t len trans] } := by
  induction p generalizing s with
  | ret a =>
    cases he
    exact .single (.reserved rfl rfl)
  | fault e => cases he
  | act g k ih =>
    have hk := ih (s := { s with image := apply s.image (g s.image) }) he
    by_cases hr : ∃ r, k = .ret r
    · obtain ⟨r, rfl⟩ := hr
      cases he
      exact .single (.reserved rfl rfl)
    · exact .head (.reserve rfl rfl fun r hkr => hr ⟨r, hkr⟩) hk
  | get k ih =>
    have hk := ih s.image (s := s) he
    by_cases hr : ∃ r, k s.image = .ret r
    · obtain ⟨r, hkr⟩ := hr
      rw [Prog.exec, hkr] at he
      cases he
      exact .single (.reserved rfl (by rw [Prog.next, hkr]))
    · exact .head (.reserve rfl rfl fun r hkr => hr ⟨r, hkr⟩) hk


/-- An empty journal whose area holds no entry of the current or the next generation. -/
structure Fresh (sbi : SbInfo) (s : Image) : Prop where
  dvd_size : 64 ∣ sbi.jsize
  size_le : sbi.jsize ≤ 2 ^ 31
  dvd_head : 64 ∣ s.head
  head_lt : s.head < sbi.jsize
  tail_eq : s.tail = s.head
  genId_ne : s.genId ≠ 0
  area : ∀ le < sbi.jsize, 64 ∣ le →
    (s.area le).genId ≠ s.genId ∧ (s.area le).genId ≠ nextGenId s.genId

/-- The start of a run. -/
def System.init (image : Image) (nextTransactionId : UInt32) : System :=
  ⟨image, nextTransactionId, none, []⟩

/-- The states of a run that starts from an empty journal, one after every store. -/
def Reachable (sbi : SbInfo) (image : Image) (s : System) : Prop :=
  ∃ tid, ReflTransGen (Step sbi) (System.init image tid) s

theorem Reachable.trans {sbi : SbInfo} {init : Image} {s s' : System} (h : Reachable sbi init s)
    (h' : ReflTransGen (Step sbi) s s') : Reachable sbi init s' :=
  h.imp fun _ hr => hr.trans h'

/-- The commit record of the transaction is valid. -/
def Tx.CommitValid (tx : Tx) (s : Image) : Prop :=
  ∃ i < tx.numEntries, (s.area (tx.span.start + 64 * i)).genId = tx.span.genId ∧
    (s.area (tx.span.start + 64 * i)).type &&& leCommit ≠ 0

end Wpmfs.Journal
