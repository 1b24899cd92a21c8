import Mathlib.Algebra.Order.Ring.Int
import Mathlib.Algebra.Order.Ring.Nat
import Mathlib.Data.Int.Basic
import Mathlib.Data.Nat.Basic
import Mathlib.Order.Basic

/-!
# What the two block allocators share

Block types, page marks and the write counters. A block is named by its number; the page of
block `b` is `pfn_to_page(pfn0 + b)` and its counter the `b`-th of the counter file. The marks
of a page are four bits of `page->private`, kept here as four flags.
-/

namespace Wpmfs.Balloc

inductive Errno where
  | enomem
  | enospc
deriving DecidableEq, Repr

/-- `pi->i_blk_type`. -/
inductive BlockType where
  | b4K
  | b2M
  | b1G
deriving DecidableEq, Repr

/-- `pmfs_get_numblocks`. -/
def pmfsGetNumblocks : BlockType → Nat
  | .b4K => 1
  | .b2M => 512
  | .b1G => 0x40000

theorem pmfsGetNumblocks_pos (t : BlockType) : 0 < pmfsGetNumblocks t := by
  cases t <;> decide

/-- `wpmfs_page_marks(page)`. -/
structure PageMarks where
  pageUsing : Bool := false
  pageTired : Bool := false
  pageVmap : Bool := false
  pageVmapDynamic : Bool := false
deriving DecidableEq, Repr

/-- The value `WPMFS_PAGE_USING`. -/
def PageMarks.inUse : PageMarks := { pageUsing := true }

@[simp] theorem PageMarks.inUse_pageUsing : PageMarks.inUse.pageUsing = true := rfl
@[simp] theorem PageMarks.inUse_pageVmap : PageMarks.inUse.pageVmap = false := rfl

/-- The blocks that a reserved prefix of `initUsedSize` bytes takes. -/
def reservedBlocks (initUsedSize : Nat) : Nat := (initUsedSize + 4095) / 4096

/-- `get_int_thres_size`: an `int` shift, whose count the processor takes modulo 32, converted
to 64 bits. -/
def getIntThresSize (power : Nat) : Nat :=
  if power % 32 = 31 then 2 ^ 64 - 2 ^ 31 else 2 ^ (power % 32)

theorem getIntThresSize_pos (power : Nat) : 0 < getIntThresSize power := by
  unfold getIntThresSize
  split
  · decide
  · exact Nat.two_pow_pos _

/-- The conversion of a 64-bit number to `int`. -/
def toInt (n : Nat) : Int := Int.bmod n (2 ^ 32)

end Wpmfs.Balloc
