import Wpmfs.Balloc.Factory

/-!
# Pages behind mapping tables

With the `vmap` option the reserved pages and the pages of the inode table are reached through
`vmalloc` space, in two areas: the static one and the dynamic one. A mapping table in persistent
memory records the block behind each virtual page, and the kernel page table maps the page to it.
`WPMFS_PAGE_VMAP` marks the pages that are mapped so, and `page->index` is the index of their slot.

Pages are named by their block. What the wear-aware allocator writes into free blocks is left out,
and `vmap_page_range` does not run out of memory.
-/

namespace Wpmfs.Vmap

open Balloc

/-- The areas of `vmalloc` space, values 1 and 2 of `vlocation`. -/
inductive Region where
  | static
  | dynamic
deriving DecidableEq, Repr

/-- The words of the block 0 before the static table. -/
def mptablesWords : ℕ := 3

/-- The words in the page of the table head that precede the table. -/
def Region.tableStart : Region → ℕ
  | static => mptablesWords
  | dynamic => 0

/-- The slots that the reserved pages of the dynamic table hold. -/
def dynamicSlots : ℕ := 10 * 512

/-- An area: `mptable[k].blocknr` and what of it is persistent, the page table, and
`size >> PAGE_SHIFT`. -/
structure Area where
  slot : ℕ → ℕ
  flushed : ℕ → ℕ
  pte : ℕ → Option ℕ
  pages : ℕ

namespace Area

/-- The cache line of a slot, counted from the line that the table head is in. -/
def line (r : Region) (k : ℕ) : ℕ := (r.tableStart + k) / 8

/-- `pmfs_flush_buffer(&mptable[k], sizeof(*mptable), true)`. -/
def flushSlot (r : Region) (k : ℕ) (m : Area) : Area :=
  { m with flushed := fun j => if line r j = line r k then m.slot j else m.flushed j }

def setSlot (k b : ℕ) (m : Area) : Area := { m with slot := Function.update m.slot k b }

def setPte (k b : ℕ) (m : Area) : Area := { m with pte := Function.update m.pte k (some b) }

end Area

/-- What the file system keeps for its device: the allocator with the page marks, the 64-bit words
of each block, `page->index` of each page, and the areas. -/
structure Sb where
  alloc : Factory
  words : ℕ → ℕ → ℕ
  pageIndex : ℕ → ℕ
  area : Region → Area

namespace Sb

def marks (s : Sb) (b : ℕ) : PageMarks := s.alloc.pageMarks b

def setArea (s : Sb) (r : Region) (m : Area) : Sb := { s with area := Function.update s.area r m }

@[simp] theorem setArea_self {s : Sb} {r : Region} {m : Area} : (s.setArea r m).area r = m :=
  Function.update_self ..

theorem setArea_of_ne {s : Sb} {r r' : Region} {m : Area} (h : r' ≠ r) :
    (s.setArea r m).area r' = s.area r' := Function.update_of_ne h ..

/-- The area that the marks of a page name. -/
def regionOf (m : PageMarks) : Region := if m.pageVmapDynamic then .dynamic else .static

/-- The marks of a page that is mapped. -/
def mappedMarks (r : Region) : PageMarks :=
  { pageUsing := true, pageVmap := true, pageVmapDynamic := decide (r = .dynamic) }

@[simp] theorem regionOf_mappedMarks {r : Region} : regionOf (mappedMarks r) = r := by
  cases r <;> rfl

@[simp] theorem mappedMarks_pageVmap {r : Region} : (mappedMarks r).pageVmap = true := rfl

/-! ## Setup -/

/-- The pages of the static mapping table of `n` slots. -/
def mapPages (n : ℕ) : ℕ := (8 * (mptablesWords + n) + 4095) / 4096

/-- One round of the loop of `setup_vmap_static`: the block `b` for the slot `k`. -/
def setupSlot (s : Sb) (k b : ℕ) : Sb :=
  { s with
    alloc := s.alloc.markPage b (mappedMarks .static)
    pageIndex := Function.update s.pageIndex b k
    area := Function.update s.area .static (((s.area .static).setSlot k b).setPte k b) }

/-- The loop of `setup_vmap_static`, for the blocks from `first` on. -/
def setupSlots (first : ℕ) : ℕ → Sb → Sb
  | 0, s => s
  | n + 1, s => (setupSlots first n s).setupSlot n (first + n)

/-- `setup_vmap_static` for `n` reserved pages, `vmap` succeeding. -/
def setupVmapStatic (n : ℕ) (s : Sb) : Sb :=
  let s := setupSlots (mapPages n) n s
  let m := s.area .static
  s.setArea .static { m with flushed := m.slot, pages := n }

/-- The loop of `setup_vmap_dynamic`, for the blocks from `first` on. -/
def setupTable (first : ℕ) : ℕ → Sb → Sb
  | 0, s => s
  | n + 1, s =>
    let s := setupTable first n s
    { s with
      words := Function.update s.words (first + n) fun _ => 0
      alloc := s.alloc.markPage (first + n) { pageUsing := true, pageVmapDynamic := true } }

/-- `setup_vmap_dynamic`, with its table after the first `n` reserved blocks. -/
def setupVmapDynamic (n : ℕ) (s : Sb) : Sb :=
  (setupTable n 10 s).setArea .dynamic ⟨fun _ => 0, fun _ => 0, fun _ => none, 0⟩

/-- The tables of a new file system with `n` reserved pages, and then the allocator. The pages may
hold anything before. -/
def hardInit (wear : Bool) (blockEnd numBins n : ℕ) (s : Sb) : Sb :=
  let s := setupVmapDynamic (mapPages n + n) (setupVmapStatic n s)
  let reserved := 4096 * (mapPages n + n + 10)
  { s with
    alloc := .start wear (mapPages n) blockEnd numBins reserved s.alloc.pageMarks }

/-! ## Mapping and migration -/

/-- `wpmfs_map_dynamic_page`. It flushes the slot whose number is the byte offset of the page. The
offset of the page is `4096` times its slot. -/
def wpmfsMapDynamicPage (s : Sb) (b : ℕ) : Sb :=
  let m := s.area .dynamic
  let k := m.pages
  let m := ((m.setPte k b).setSlot k b).flushSlot .dynamic (4096 * k)
  { s with
    alloc := s.alloc.markPage b (mappedMarks .dynamic)
    pageIndex := Function.update s.pageIndex b k
    area := Function.update s.area .dynamic { m with pages := k + 1 } }

/-- `Allocator.pmfs_new_block`. -/
def newBlock (o : Surroundings) (s : Sb) : Except Errno ℕ × Sb :=
  let (r, a) := s.alloc.newBlock o
  (r, { s with alloc := a })

/-- `Allocator.pmfs_free_block`; `none` is a bad store. -/
def freeBlock (o : Surroundings) (b : ℕ) (s : Sb) : Option Sb :=
  (s.alloc.freeBlock o b).map fun a => { s with alloc := a }

/-- The new page, of the block `q`, takes over the marks and the index of the old one. -/
def inherit (s : Sb) (b q : ℕ) : Sb :=
  { s with
    alloc := s.alloc.markPage q (s.marks b)
    pageIndex := Function.update s.pageIndex q (s.pageIndex b) }

/-- The new page takes over the contents and the slot of the old one. -/
def moveSlot (s : Sb) (r : Region) (k b q : ℕ) : Sb :=
  { s with
    words := if q = b then s.words else Function.update s.words q (s.words b)
    area := Function.update s.area r ((((s.area r).setSlot k q).flushSlot r k).setPte k q) }

/-- `_level_type_vmap` once it has the new block `q`. -/
def migrateTo (o : Surroundings) (s : Sb) (b q : ℕ) : Option Sb :=
  let s := s.inherit b q
  let r := regionOf (s.marks b)
  let k := s.pageIndex b
  match (s.area r).pte k with
  | none => s.freeBlock o b
  | some _ => (s.moveSlot r k b q).freeBlock o b

/-- `_level_type_vmap` of the page of the block `b`. Only `-ENOMEM` is noticed; after another error
`blocknr` is still `b`. -/
def levelTypeVmap (o o' : Surroundings) (s : Sb) (b : ℕ) : Option Sb :=
  match s.newBlock o with
  | (.ok q, s) => s.migrateTo o' b q
  | (.error .enomem, s) => some s
  | (.error .enospc, s) => s.migrateTo o' b b

end Sb

end Wpmfs.Vmap
