import Wpmfs.Library.Persist

/-!
# The journal area

The persistent state the journal code works on: the journal record, the log entries and the
rest of persistent memory. An entry is named by its byte offset in the journal area, a byte of
memory by the block offset that `wpmfs_get_block` maps to it. An entry takes 64 bytes
(`LOGENTRY_SIZE`), 48 of them data (`MAX_DATA_PER_LENTRY`). The record's `base` only turns
offsets into pointers and `redo_logging` is always 0, so neither is kept.
-/

namespace Wpmfs.Journal

open Persist

def leData : UInt8 := 0
def leStart : UInt8 := 1
def leCommit : UInt8 := 2
def leAbort : UInt8 := 4

def maxGenId : UInt16 := 65535

/-- `pmfs_logentry_t`. -/
structure LogEntry where
  addrOffset : Nat
  transactionId : UInt32
  genId : UInt16
  type : UInt8
  size : UInt8
  data : Nat → UInt8

/-- `le->type & LE_START`. -/
def LogEntry.isStart (le : LogEntry) : Bool := le.type &&& leStart != 0

/-- `le->type & LE_COMMIT || le->type & LE_ABORT`. -/
def LogEntry.isFinish (le : LogEntry) : Bool :=
  le.type &&& leCommit != 0 || le.type &&& leAbort != 0

/-- The fields of `pmfs_journal_t` that change, the log entries, and all other memory. -/
structure Image where
  head : Nat
  tail : Nat
  genId : UInt16
  area : Nat → LogEntry
  mem : Nat → UInt8

/-- A store to one field of a log entry. -/
inductive Field where
  | addrOffset (v : Nat)
  | transactionId (v : UInt32)
  | genId (v : UInt16)
  | type (v : UInt8)
  | size (v : UInt8)
  | data (k : Nat) (v : UInt8)

def LogEntry.set (le : LogEntry) : Field → LogEntry
  | .addrOffset v => { le with addrOffset := v }
  | .transactionId v => { le with transactionId := v }
  | .genId v => { le with genId := v }
  | .type v => { le with type := v }
  | .size v => { le with size := v }
  | .data k v => { le with data := Function.update le.data k v }

/-- A store to persistent memory. `tailGenId` is the atomic 8-byte store to the adjacent
`tail` and `gen_id`. -/
inductive Store where
  | mem (addr : Nat) (v : UInt8)
  | entry (le : Nat) (field : Field)
  | tailGenId (tail : Nat) (genId : UInt16)
  | tail (v : Nat)
  | genId (v : UInt16)
  | head (v : Nat)

def Image.apply (s : Image) : Store → Image
  | .mem addr v => { s with mem := Function.update s.mem addr v }
  | .entry le field => { s with area := Function.update s.area le ((s.area le).set field) }
  | .tailGenId tail genId => { s with tail := tail, genId := genId }
  | .tail v => { s with tail := v }
  | .genId v => { s with genId := v }
  | .head v => { s with head := v }

instance : StoreModel Image Store := ⟨Image.apply⟩

@[simp] theorem apply_mem (s : Image) (addr : Nat) (v : UInt8) :
    apply s (.mem addr v) = { s with mem := Function.update s.mem addr v } := rfl

@[simp] theorem apply_entry (s : Image) (le : Nat) (f : Field) :
    apply s (.entry le f) =
      { s with area := Function.update s.area le ((s.area le).set f) } := rfl

@[simp] theorem apply_tailGenId (s : Image) (tail : Nat) (g : UInt16) :
    apply s (.tailGenId tail g) = { s with tail := tail, genId := g } := rfl

@[simp] theorem apply_tail (s : Image) (v : Nat) : apply s (.tail v) = { s with tail := v } := rfl

@[simp] theorem apply_genId (s : Image) (v : UInt16) :
    apply s (.genId v) = { s with genId := v } := rfl

@[simp] theorem apply_head (s : Image) (v : Nat) : apply s (.head v) = { s with head := v } := rfl

/-- A journal that has never been used. -/
def emptyImage : Image where
  head := 0
  tail := 0
  genId := 1
  area _ := ⟨0, 0, 0, 0, 0, fun _ => 0⟩
  mem _ := 0

/-- The ways the kernel stops instead of going on. -/
inductive Fault where
  | bugOn
  | nullDeref
  /-- A loop bound of the model was reached. -/
  | outOfFuel
  deriving DecidableEq

abbrev JProg (α : Type) := Prog Image Store Fault α

/-- The fields of `struct pmfs_sb_info` the journal reads. -/
structure SbInfo where
  jsize : Nat
  vmapEnabled : Bool

/-- The number of entries of the journal area. -/
def SbInfo.slots (sbi : SbInfo) : Nat := sbi.jsize / 64

/-- The byte of memory `wpmfs_get_block` points to, named by its own block offset;
`none` for a null pointer. -/
def wpmfsGetBlock (sbi : SbInfo) (blockoff : Nat) : Option Nat :=
  let val := blockoff % 2 ^ 57
  match blockoff / 2 ^ 57 % 2 ^ 7 with
  | 0 => if val = 0 then none else some val
  | 1 => if val = 0 then none else some (if sbi.vmapEnabled then 2 ^ 57 + val else val)
  | 2 =>
    if sbi.vmapEnabled then some (2 * 2 ^ 57 + val)
    else if val = 0 then none else some val
  | _ => none

/-- `wpmfs_reget_blockoff` inverts the mapping, so a pointer's name is its block offset. -/
def wpmfsRegetBlockoff (addr : Nat) : Nat := addr

def nextLogEntry (jsize leOff : Nat) : Nat :=
  if leOff + 64 ≥ jsize then 0 else leOff + 64

def prevLogEntry (jsize leOff : Nat) : Nat :=
  (if leOff = 0 then jsize else leOff) - 64

def nextGenId (genId : UInt16) : UInt16 :=
  let genId := genId + 1
  if genId = 0 then genId + 1 else genId

def prevGenId (genId : UInt16) : UInt16 :=
  let genId := genId - 1
  if genId = 0 then genId - 1 else genId

theorem nextGenId_ne_zero (g : UInt16) : nextGenId g ≠ 0 := by
  unfold nextGenId
  grind

theorem prevGenId_nextGenId {g : UInt16} (hg : g ≠ 0) : prevGenId (nextGenId g) = g := by
  unfold prevGenId nextGenId
  grind

theorem nextGenId_prevGenId {g : UInt16} (hg : g ≠ 0) : nextGenId (prevGenId g) = g := by
  unfold prevGenId nextGenId
  grind

theorem prevLogEntry_of_pos {jsize off : Nat} (h : 0 < off) :
    prevLogEntry jsize off = off - 64 := by
  simp [prevLogEntry, Nat.ne_of_gt h]

theorem prevLogEntry_zero (jsize : Nat) : prevLogEntry jsize 0 = jsize - 64 := rfl

/-- A store to a field of the entry at `le`. -/
def setField (le : Nat) (f : Image → Field) : JProg Unit := Prog.store fun s => .entry le (f s)

/-- Undo a valid log entry. -/
def pmfsUndoLogentry (sbi : SbInfo) (le : Nat) : JProg Unit :=
  .get fun s =>
    if (s.area le).size > 0 then
      match wpmfsGetBlock sbi (s.area le).addrOffset with
      | none => .fault .nullDeref
      | some data =>
        Prog.forRange (fun k _ => Prog.store fun s => .mem (data + k) ((s.area le).data k))
          (s.area le).size.toNat ()
    else .ret ()

/-- `invalidate_gen_id`. -/
def invalidateGenId (le : Nat) : JProg Unit := setField le fun _ => .genId 0

/-- `pmfs_transaction_t`; `start` is the offset of `start_addr` in the journal area. -/
structure Transaction where
  transactionId : UInt32
  numEntries : Nat
  numUsed : Nat
  genId : UInt16
  start : Nat

/-- The offset of entry `i` of the transaction. -/
def Transaction.le (t : Transaction) (i : Nat) : Nat := t.start + 64 * i

/-- Undo in the reverse order. -/
def pmfsUndoTransaction (sbi : SbInfo) (trans : Transaction) : JProg Unit :=
  Prog.forRange (fun i _ =>
    .get fun s =>
      if trans.genId == (s.area (trans.le (trans.numUsed - 1 - i))).genId then
        pmfsUndoLogentry sbi (trans.le (trans.numUsed - 1 - i))
      else .ret ()) trans.numUsed ()

def pmfsInvalidateLogentries (trans : Transaction) : JProg Unit :=
  Prog.forRange (fun i _ => invalidateGenId (trans.le i)) trans.numEntries ()

end Wpmfs.Journal
