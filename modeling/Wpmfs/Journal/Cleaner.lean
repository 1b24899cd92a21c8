import Wpmfs.Journal.Basic

/-!
# The log cleaner

`pmfs_clean_journal` moves the head forward over whatever its forward walk takes to be free:
slots whose generation id is not the current one, and finished transactions. The loops that
only read entries are functions of the area; the stores are those of the source.
-/

namespace Wpmfs.Journal

open Persist

/-- How the forward walk over one transaction ends: at its commit or abort record, or at the
tail or the start of the next transaction without one. -/
inductive ProcessEnd where
  | finished (newHead numEntries : Nat)
  | unfinished (newHead numEntries : Nat)

/-- The loop of `pmfs_process_transaction`; the entry `le` is always the one at `newHead`. -/
def processWalk (area : Nat → LogEntry) (jsize tail : Nat) (genId : UInt16) :
    (fuel newHead numEntries : Nat) → Option ProcessEnd
  | 0, _, _ => none
  | fuel + 1, newHead, numEntries =>
    let le := area newHead
    let numEntries := numEntries + 1
    let newHead := nextLogEntry jsize newHead
    if genId == le.genId && le.isFinish then some (.finished newHead numEntries)
    else
      let le := area newHead
      if newHead = tail ∨ (genId == le.genId && le.isStart) then
        some (.unfinished newHead numEntries)
      else processWalk area jsize tail genId fuel newHead numEntries

/-- Process the transaction starting at a valid log entry, for an undo log and outside
recovery. The result is the new head and `*processed`. -/
def pmfsProcessTransaction (sbi : SbInfo) (head tail : Nat) : JProg (Nat × Nat) :=
  .get fun s =>
    let le := s.area head
    if !le.isStart then .ret (nextLogEntry sbi.jsize head, 0)
    else match processWalk s.area sbi.jsize tail le.genId (sbi.slots + 1) head 0 with
      | none => .fault .outOfFuel
      | some (.unfinished _ n) => .ret (head, n)
      | some (.finished newHead n) => do
        if le.genId = maxGenId then
          -- `num_entries` is a `u16`
          pmfsInvalidateLogentries
            { transactionId := le.transactionId, numEntries := n % 2 ^ 16,
              numUsed := n % 2 ^ 16, genId := le.genId, start := head }
        .ret (newHead, n)

/-- The loop of `pmfs_clean_journal`; `total` adds up what each call processed. -/
def cleanLoop (sbi : SbInfo) (tail : Nat) :
    (fuel head : Nat) → UInt16 → Nat → JProg (Nat × Nat)
  | 0, _, _, _ => .fault .outOfFuel
  | fuel + 1, head, genId, total =>
    if head = tail then .ret (head, total)
    else .get fun s =>
      if genId == (s.area head).genId then do
        let (newHead, processed) ← pmfsProcessTransaction sbi head tail
        let total := total + processed
        -- no progress was made
        if newHead = head then .ret (head, total)
        else
          cleanLoop sbi tail fuel newHead
            (if newHead = 0 then nextGenId genId else genId) total
      else do
        if genId = maxGenId then invalidateGenId head
        let head := nextLogEntry sbi.jsize head
        cleanLoop sbi tail fuel head (if head = 0 then nextGenId genId else genId) total

/-- `pmfs_clean_journal`: the number of entries it counted as processed. -/
def pmfsCleanJournal (sbi : SbInfo) : JProg Nat :=
  .get fun s => do
    let genId := if s.tail < s.head then prevGenId s.genId else s.genId
    let (head, total) ← cleanLoop sbi s.tail (sbi.slots + 1) s.head genId 0
    Prog.store fun _ => .head head
    .ret total

/-- The bytes `pmfs_free_logentries` reports as freed. -/
def pmfsFreeLogentries (sbi : SbInfo) : JProg Nat := do
  let freedEntries ← pmfsCleanJournal sbi
  .ret (64 * freedEntries)

end Wpmfs.Journal
