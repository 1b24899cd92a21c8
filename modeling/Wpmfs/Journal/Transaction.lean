import Wpmfs.Journal.Cleaner

/-!
# Transactions

Reserving a region of the journal, appending log entries to it, and ending the transaction by
a commit or an abort record, as the undo log does it.
-/

namespace Wpmfs.Journal

open Persist

/-- The free bytes a reservation sees for a head and a tail, one entry kept empty. -/
def availSize (sbi : SbInfo) (head tail : Nat) : Nat :=
  (if tail ≥ head then sbi.jsize - (tail - head) else head - tail) - 64

/-- Up to `retry` cleaning passes, until the sum of what is free and what they report as freed
covers the request. -/
def freeLoop (sbi : SbInfo) (avail req : Nat) : (retry freed : Nat) → JProg Nat
  | 0, freed => .ret freed
  | retry + 1, freed => do
    let n ← pmfsFreeLogentries sbi
    let freed := (freed + n) % 2 ^ 32
    if (avail + freed) % 2 ^ 32 ≥ req then .ret freed
    else freeLoop sbi avail req retry freed

/-- The part of `pmfs_new_transaction` under the journal lock, from the label `again` on.
`head` and `tail` are its local copies; the sums are those of `uint32_t`. The result is the
generation id and the offset of the region, or `none` for a full journal. -/
def reserve (sbi : SbInfo) (req : Nat) : (fuel head tail : Nat) → JProg (Option (UInt16 × Nat))
  | 0, _, _ => .fault .outOfFuel
  | fuel + 1, head, tail =>
    .get fun s => do
      let genId := s.genId
      let avail := availSize sbi head tail
      let freed ← if avail < req then freeLoop sbi avail req 3 0 else .ret 0
      if avail < req ∧ (avail + freed) % 2 ^ 32 < req then .ret none
      else
        let base := tail
        let tail := (tail + req) % 2 ^ 32
        if tail ≥ sbi.jsize then do
          -- writing 8 bytes atomically, setting the tail to 0
          Prog.store fun s => .tailGenId 0 (nextGenId s.genId)
          reserve sbi req fuel head 0
        else do
          Prog.store fun _ => .tail tail
          .ret (some (genId, base))

/-- One turn through `again` with enough space free. -/
theorem reserve_eq {sbi : SbInfo} {req head tail fuel : Nat}
    (h : req ≤ availSize sbi head tail) :
    reserve sbi req (fuel + 1) head tail = .get fun s =>
      if (tail + req) % 2 ^ 32 ≥ sbi.jsize then
        .act (fun s => .tailGenId 0 (nextGenId s.genId)) (reserve sbi req fuel head 0)
      else .act (fun _ => .tail ((tail + req) % 2 ^ 32)) (.ret (some (s.genId, tail))) := by
  rw [reserve]
  have hn : ¬availSize sbi head tail < req := by omega
  simp [hn, Prog.store]

/-- `req_size` of `pmfs_new_transaction`: one entry more for the commit record. -/
def reqSize (maxLogEntries : Nat) : Nat := (maxLogEntries + 1) * 64 % 2 ^ 32

/-- `pmfs_new_transaction` for an undo log, with one entry more for the commit record. `fuel`
bounds the turns through `again`; `none` is `-EAGAIN`. -/
def pmfsNewTransaction (sbi : SbInfo) (fuel : Nat) (nextTransactionId : UInt32)
    (maxLogEntries : Nat) : JProg (Option Transaction) :=
  .get fun s => do
    match ← reserve sbi (reqSize maxLogEntries) fuel s.head s.tail with
    | none => .ret none
    | some (genId, base) =>
      .ret (some
        { transactionId := nextTransactionId, numEntries := (maxLogEntries + 1) % 2 ^ 16,
          numUsed := 0, genId := genId, start := base })

/-- `num_les` of `pmfs_add_logentry`. -/
def numLes (size : Nat) (type : UInt8) : Nat :=
  if size = 0 then
    if type &&& leCommit != 0 || type &&& leAbort != 0 then 1 else 0
  else (size + 48 - 1) / 48

/-- `le_size` of iteration `i`: 48 bytes, the rest in the last entry. -/
def leSize (size num i : Nat) : Nat :=
  if i = num - 1 then size - 48 * i else 48

/-- Iteration `i` of the loop of `pmfs_add_logentry`. `trans` is the transaction before the
call, so this iteration writes its entry `numUsed + i`. -/
def addLogentryBody (trans : Transaction) (addr size : Nat) (type : UInt8) (num i : Nat) :
    JProg Unit := do
  let le := trans.le (trans.numUsed + i)
  let leStartOff := (if size = 0 then 0 else wpmfsRegetBlockoff addr) + 48 * i
  setField le fun _ => .addrOffset leStartOff
  setField le fun _ => .transactionId trans.transactionId
  setField le fun _ => .size (UInt8.ofNat (leSize size num i))
  Prog.forRange (fun k _ =>
    setField le fun s => .data k (s.mem (addr + 48 * i + k))) (leSize size num i) ()
  setField le fun _ => .type type
  .when (i = 0 ∧ trans.numUsed = 0) <|
    setField le fun s => .type ((s.area le).type ||| leStart)
  -- `pmfs_commit_logentry`; the flushes of `pmfs_flush_transaction` store nothing
  .when (i = num - 1 ∧ type &&& leCommit ≠ 0) <|
    setField le fun s => .type ((s.area le).type ||| leCommit)
  -- atomically make the log entry valid
  setField le fun _ => .genId trans.genId

/-- `pmfs_add_logentry`: the transaction with its new `num_used`, or `none` for `-ENOMEM`. -/
def pmfsAddLogentry (trans : Transaction) (addr size : Nat) (type : UInt8) :
    JProg (Option Transaction) :=
  let num := numLes size type
  if trans.numUsed + num > trans.numEntries then .ret none
  else do
    Prog.forRange (fun i _ => addLogentryBody trans addr size type num i) num ()
    .ret (some { trans with numUsed := trans.numUsed + num })

def pmfsCommitTransaction (trans : Transaction) : JProg (Option Transaction) :=
  pmfsAddLogentry trans 0 0 leCommit

def pmfsAbortTransaction (sbi : SbInfo) (trans : Transaction) : JProg (Option Transaction) := do
  pmfsUndoTransaction sbi trans
  pmfsAddLogentry trans 0 0 leAbort

end Wpmfs.Journal
