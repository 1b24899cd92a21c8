import Wpmfs.Vmap.Basic

/-!
# The size of a new file system

`pmfs_check_size` adds up what the super block, the root directory, the inode table and the journal
take. What `pmfs_init` lays out is the super block and the journal and, with the `vmap` option, the
mapping tables, which the check does not know of.
-/

namespace Wpmfs.Mount

open Balloc Vmap

/-- `minimum_size` as `pmfs_check_size` computes it, in 64 bits. -/
def minimumSize (numInodes : UInt64) (jsize : UInt32) : ℕ :=
  let numBlocks := if 0 < numInodes.toNat then numInodes.toNat / 2 ^ (12 - 7) + 1 else 1
  (2 * 4096 + numBlocks * 4096 % 2 ^ 64 + jsize.toNat) % 2 ^ 64

/-- `pmfs_check_size`. -/
def pmfsCheckSize (size numInodes : UInt64) (jsize : UInt32) : Bool :=
  !decide (size.toNat < minimumSize numInodes jsize)

/-- What `wpmfs_setup_memory` makes of `reserved_memory_size`, when `vmalloc` and `vmap` succeed:
the static mapping table and the ten pages of the dynamic one are added. -/
def wpmfsSetupMemory (enabled : Bool) (reservedSize : ℕ) : ℕ :=
  if enabled then
    let rsrvMemPages := (reservedSize + 4095) / 4096
    let mapSize := Sb.mapPages rsrvMemPages * 4096
    reservedSize + mapSize + 4096 * 10
  else reservedSize

/-- The fields of `struct pmfs_sb_info` that a format sets, and the reserved area. -/
structure Layout where
  reservedSize : ℕ
  unusedBlockLow : ℕ
  unusedBlockHigh : ℕ
  numFreeBlocks : ℕ

/-- `pmfs_init` up to `wpmfs_init_blockmap`; `num_free_blocks` is an `unsigned long`. -/
def pmfsInit (size : UInt64) (jsize : UInt32) (enabled : Bool) : Layout :=
  let blockEnd := size.toNat / 4096
  let journalDataStart := (512 * 2 + 4096 - 1) / 4096 * 4096
  let reservedSize := wpmfsSetupMemory enabled (journalDataStart + jsize.toNat)
  let numUsedBlock := reservedBlocks reservedSize
  { reservedSize
    unusedBlockLow := numUsedBlock
    unusedBlockHigh := blockEnd
    numFreeBlocks := (blockEnd + 2 ^ 64 - numUsedBlock) % 2 ^ 64 }

/-- The blocks that an inode table for `numInodes` inodes takes. -/
def tableBlocks (numInodes : UInt64) : ℕ :=
  if numInodes = 0 then 1 else (numInodes.toNat * 128 + 4095) / 4096

/-- The file system fits on the device, with its inode table and its root directory. -/
structure Layout.Fits (l : Layout) (size numInodes : UInt64) : Prop where
  inside : l.reservedSize ≤ size.toNat
  ordered : l.unusedBlockLow ≤ l.unusedBlockHigh
  noWrap : l.unusedBlockLow + l.numFreeBlocks = size.toNat / 4096
  room : tableBlocks numInodes + 1 ≤ l.numFreeBlocks

/-- The pages that are needed: one for the two super blocks, one for the root directory, those of
the journal and of the inode table, and those of the mapping tables. -/
def pagesNeeded (numInodes : UInt64) (jsize : UInt32) (enabled : Bool) : ℕ :=
  2 + (jsize.toNat + 4095) / 4096 + tableBlocks numInodes +
    if enabled then Sb.mapPages (1 + (jsize.toNat + 4095) / 4096) + 10 else 0

variable {size numInodes : UInt64} {jsize : UInt32} {enabled : Bool}

/-- The pages of the reserved area. -/
theorem pmfsInit_unusedBlockLow (size : UInt64) (jsize : UInt32) (enabled : Bool) :
    (pmfsInit size jsize enabled).unusedBlockLow = 1 + (jsize.toNat + 4095) / 4096 +
      if enabled then Sb.mapPages (1 + (jsize.toNat + 4095) / 4096) + 10 else 0 := by
  have hpages : ((512 * 2 + 4096 - 1) / 4096 * 4096 + jsize.toNat + 4095) / 4096 =
      1 + (jsize.toNat + 4095) / 4096 := by omega
  simp only [pmfsInit, wpmfsSetupMemory, reservedBlocks, hpages]
  split <;> omega

theorem pmfsInit_reservedSize_le (size : UInt64) (jsize : UInt32) (enabled : Bool) :
    (pmfsInit size jsize enabled).reservedSize ≤
      (pmfsInit size jsize enabled).unusedBlockLow * 4096 := by
  simp only [pmfsInit, reservedBlocks]
  omega

/-- The number of free blocks wraps when the reserved area is longer than the device. -/
theorem pmfsInit_numFreeBlocks (size : UInt64) (jsize : UInt32) (enabled : Bool) :
    (pmfsInit size jsize enabled).numFreeBlocks =
      (size.toNat / 4096 + 2 ^ 64 - (pmfsInit size jsize enabled).unusedBlockLow) % 2 ^ 64 := rfl

theorem fits_iff_pagesNeeded : (pmfsInit size jsize enabled).Fits size numInodes ↔
    pagesNeeded numInodes jsize enabled ≤ size.toNat / 4096 := by
  have hlow := pmfsInit_unusedBlockLow size jsize enabled
  have hreserved := pmfsInit_reservedSize_le size jsize enabled
  have hfree := pmfsInit_numFreeBlocks size jsize enabled
  have hhigh : (pmfsInit size jsize enabled).unusedBlockHigh = size.toNat / 4096 := rfl
  have hsize := size.toNat_lt
  have hneeded : pagesNeeded numInodes jsize enabled =
      (pmfsInit size jsize enabled).unusedBlockLow + tableBlocks numInodes + 1 := by
    rw [hlow, pagesNeeded]
    omega
  rw [hneeded]
  constructor
  · intro h
    have hwrap := h.noWrap
    have hroom := h.room
    omega
  · intro h
    exact ⟨by omega, by omega, by omega, by omega⟩

/-- Without mapping tables, for a journal of whole pages and a number of inodes that does not
overflow, the check is enough. -/
theorem pagesNeeded_of_pmfsCheckSize (hcheck : pmfsCheckSize size numInodes jsize = true)
    (hjsize : jsize.toNat % 4096 = 0) (hinodes : numInodes.toNat < 2 ^ 56) :
    pagesNeeded numInodes jsize false ≤ size.toNat / 4096 := by
  have hjlt := jsize.toNat_lt
  have hsize : minimumSize numInodes jsize ≤ size.toNat := by
    simpa [pmfsCheckSize] using hcheck
  have hzero : numInodes = 0 ↔ numInodes.toNat = 0 := by
    rw [← UInt64.toNat_inj]
    rfl
  simp only [minimumSize] at hsize
  simp only [pagesNeeded, tableBlocks, hzero, Bool.false_eq_true, if_false]
  split at hsize <;> split <;> omega

end Wpmfs.Mount
