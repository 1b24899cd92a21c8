import Wpmfs.Journal.Undo

/-!
# Undo recovery

`pmfs_recover_undo_journal` walks the journal backward from the tail to the head, undoes every
transaction it finds no commit or abort record for, and then moves the generation id and the
head forward. In the largest generation it also clears the generation id of each entry it
passes, since the next generation starts again at 1.
-/

namespace Wpmfs.Journal

open Persist

/-- What the backward walk of `pmfs_recover_transaction` found: the offset it stopped at, the
number of entries passed, and whether it met a start record and a finishing record. -/
structure Walk where
  tail : Nat
  numEntries : Nat
  startFound : Bool
  cmtOrAbrtFound : Bool

/-- The loop of `pmfs_recover_transaction`; the entry `le` is always the one at `tail`. -/
def recoverWalk (area : Nat → LogEntry) (jsize head : Nat) (genId : UInt16)
    (transactionId : UInt32) : (fuel tail numEntries : Nat) → Bool → Except Fault Walk
  | 0, _, _, _ => .error .outOfFuel
  | fuel + 1, tail, numEntries, cmtOrAbrtFound =>
    let le := area tail
    -- `num_entries` and `num_used` are `u16`
    let numEntries := (numEntries + 1) % 2 ^ 16
    let valid := genId == le.genId
    let cmtOrAbrtFound := cmtOrAbrtFound || valid && le.isFinish
    if valid && le.isStart then .ok ⟨tail, numEntries, true, cmtOrAbrtFound⟩
    else if tail = 0 ∨ tail = head then .ok ⟨tail, numEntries, false, cmtOrAbrtFound⟩
    else
      let le := area (tail - 64)
      if genId == le.genId && le.isFinish then
        if transactionId == le.transactionId then .error .bugOn
        else .ok ⟨tail, numEntries, false, cmtOrAbrtFound⟩
      else recoverWalk area jsize head genId transactionId fuel (prevLogEntry jsize tail)
        numEntries cmtOrAbrtFound

/-- Recover the transaction ending at the valid log entry at `tail`. -/
def pmfsRecoverTransaction (sbi : SbInfo) (head tail : Nat) : JProg Nat :=
  .get fun s =>
    let le := s.area tail
    match recoverWalk s.area sbi.jsize head le.genId le.transactionId (sbi.slots + 1) tail 0
        false with
    | .error e => .fault e
    | .ok w => do
      let trans : Transaction :=
        { transactionId := le.transactionId, numEntries := w.numEntries,
          numUsed := w.numEntries, genId := le.genId, start := w.tail }
      if w.startFound && !w.cmtOrAbrtFound then pmfsUndoTransaction sbi trans
      if le.genId = maxGenId then pmfsInvalidateLogentries trans
      .ret w.tail

/-- The loop of `pmfs_recover_undo_journal`. -/
def recoverLoop (sbi : SbInfo) (head : Nat) : (fuel tail : Nat) → UInt16 → JProg Unit
  | 0, _, _ => .fault .outOfFuel
  | fuel + 1, tail, genId =>
    if head = tail then .ret ()
    else
      let genId := if tail = 0 then prevGenId genId else genId
      let tail := prevLogEntry sbi.jsize tail
      .get fun s =>
        if genId == (s.area tail).genId then do
          let tail ← pmfsRecoverTransaction sbi head tail
          recoverLoop sbi head fuel tail genId
        else do
          if genId = maxGenId then invalidateGenId tail
          recoverLoop sbi head fuel tail genId

def invalidateRemainingJournal (sbi : SbInfo) (jtail : Nat) : JProg Unit :=
  Prog.forRange (fun i _ => invalidateGenId (jtail + 64 * i))
    ((sbi.jsize - jtail) / 64) ()

def pmfsForwardJournal (sbi : SbInfo) : JProg Unit :=
  .get fun s => do
    if s.genId = maxGenId then invalidateRemainingJournal sbi s.tail
    Prog.store fun _ => .genId (nextGenId s.genId)
    Prog.store fun s => .head s.tail

def pmfsRecoverUndoJournal (sbi : SbInfo) : JProg Unit :=
  .get fun s => do
    recoverLoop sbi s.head (sbi.slots + 1) s.tail s.genId
    pmfsForwardJournal sbi

def pmfsRecoverJournal (sbi : SbInfo) : JProg Unit :=
  .get fun s =>
    if s.head = s.tail then .ret ()
    else pmfsRecoverUndoJournal sbi

end Wpmfs.Journal
