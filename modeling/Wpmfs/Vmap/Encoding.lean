import Wpmfs.Vmap.Address
import Wpmfs.Vmap.Marks

/-!
# Addresses as block offsets

What is stored of an address is its offset in the direct mapping, the static area or the dynamic
area, with the number of the area above it. The blocks behind dynamic addresses are looked up in the
dynamic mapping table, which lies in ten blocks of the device; a slot past them is in a block that
may be anybody's.
-/

namespace Wpmfs.Vmap

open Balloc

/-- `union wpmfs_blockoff`: the 57 bits of `val`, and the 7 of `vlocation` above them. -/
def blockoff (val vlocation : ℕ) : ℕ := val % 2 ^ 57 + vlocation % 2 ^ 7 * 2 ^ 57

/-- The size of the dynamic area, in `vmalloc` space. -/
def vmSize : ℕ := 1024 * 1024 * 1024

/-- Where the kernel has the device and the two areas, the static one of `n` pages: physical
addresses have 52 bits, both areas are in `vmalloc` space, where the device is not, and apart. -/
structure Space (n : ℕ) where
  physAddr : ℕ
  initsize : ℕ
  virtAddr : ℕ
  vmallocStart : ℕ
  vmallocEnd : ℕ
  baseStatic : ℕ
  baseDynamic : ℕ
  physical : physAddr + initsize ≤ 2 ^ 52
  virtual : virtAddr + initsize ≤ 2 ^ 64 ∧ vmallocEnd ≤ 2 ^ 64
  direct : virtAddr + initsize ≤ vmallocStart ∨ vmallocEnd ≤ virtAddr
  static : vmallocStart ≤ baseStatic ∧ baseStatic + 4096 * n ≤ vmallocEnd
  dynamic : vmallocStart ≤ baseDynamic ∧ baseDynamic + vmSize ≤ vmallocEnd
  apart : baseStatic + 4096 * n ≤ baseDynamic ∨ baseDynamic + vmSize ≤ baseStatic
  reserved : Sb.mapPages n + n + 10 ≤ initsize / 4096

/-- The value of `vlocation`. The direct mapping is no region. -/
def vlocation : Option Region → ℕ
  | none => 0
  | some .static => 1
  | some .dynamic => 2

/-- The file system with its dynamic mapping table, which begins with the block
`mptable_dynamic.head_blocknr`. A store to a slot is one to memory. -/
structure Tables where
  sb : Sb
  headBlocknr : ℕ

namespace Space

variable {n : ℕ} (m : Space n)

/-- `is_vmalloc_addr`. -/
def isVmallocAddr (addr : ℕ) : Bool := decide (m.vmallocStart ≤ addr ∧ addr < m.vmallocEnd)

/-- The start of an area, or of the direct mapping. -/
def start : Option Region → ℕ
  | none => m.virtAddr
  | some .static => m.baseStatic
  | some .dynamic => m.baseDynamic

/-- Its size; those of the areas are `size_static` and `size_dynamic`. -/
def size (s : Sb) : Option Region → ℕ
  | none => m.initsize
  | some r => 4096 * (s.area r).pages

/-- `wpmfs_reget_blockoff`; `none` is a failed assertion. -/
def wpmfsRegetBlockoff (s : Sb) (addr : ℕ) : Option ℕ :=
  if !m.isVmallocAddr addr then
    some (blockoff ((addr + 2 ^ 64 - m.virtAddr) % 2 ^ 64) 0)
  else if m.baseStatic ≤ addr ∧ addr < m.baseStatic + 4096 * (s.area .static).pages then
    some (blockoff (addr - m.baseStatic) 1)
  else if m.baseDynamic ≤ addr ∧ addr < m.baseDynamic + 4096 * (s.area .dynamic).pages then
    some (blockoff (addr - m.baseDynamic) 2)
  else none

/-- `wpmfs_get_block`, with `vmap` enabled; `none` is a null pointer, or a failed assertion. -/
def wpmfsGetBlock (blockoff : ℕ) : Option ℕ :=
  let val := blockoff % 2 ^ 57
  match blockoff / 2 ^ 57 % 2 ^ 7 with
  | 0 => if val = 0 then none else some ((m.virtAddr + val) % 2 ^ 64)
  | 1 => if val = 0 then none else some ((m.baseStatic + val) % 2 ^ 64)
  | 2 => some ((m.baseDynamic + val) % 2 ^ 64)
  | _ => none

/-- The page frame number of the first page of the device. -/
def pfn0 : ℕ := m.physAddr / 4096

/-- The block behind an address, as the page table has it. -/
def backing (s : Sb) (r : Option Region) (addr : ℕ) : Option ℕ :=
  match r with
  | none => some ((addr - m.virtAddr) / 4096)
  | some r => (s.area r).pte ((addr - m.start (some r)) / 4096)

end Space

namespace Tables

/-- `mptable[k].blocknr` of the dynamic table. -/
def mptable (t : Tables) (k : ℕ) : ℕ := t.sb.word t.headBlocknr k

/-- A store to the slot `k`. The static table is in the first blocks, after its head. -/
def setSlot (r : Region) (k b : ℕ) (t : Tables) : Tables :=
  match r with
  | .static => { t with sb := t.sb.setWord 0 (mptablesWords + k) b }
  | .dynamic => { t with sb := t.sb.setWord t.headBlocknr k b }

/-- `wpmfs_reget_blocknr`; `none` is a failed assertion. -/
def wpmfsRegetBlocknr (t : Tables) (blockoff : ℕ) : Option ℕ :=
  match blockoff / 2 ^ 57 % 2 ^ 7 with
  | 0 => some (blockoff / 4096)
  | 2 => some (t.mptable (blockoff % 2 ^ 57 / 4096))
  | _ => none

/-- `wpmfs_get_pfn`. -/
def wpmfsGetPfn {n : ℕ} (m : Space n) (t : Tables) (blockoff : ℕ) : Option ℕ :=
  match blockoff / 2 ^ 57 % 2 ^ 7 with
  | 0 => some (m.pfn0 + blockoff / 4096)
  | 2 => some (m.pfn0 + t.mptable (blockoff % 2 ^ 57 / 4096))
  | _ => none

/-- `wpmfs_map_dynamic_page`. -/
def wpmfsMapDynamicPage (b : ℕ) (t : Tables) : Tables :=
  setSlot .dynamic (t.sb.area .dynamic).pages b { t with sb := t.sb.wpmfsMapDynamicPage b }

/-- `_level_type_vmap` once it has the new block `q`. -/
def migrateTo (o : Surroundings) (t : Tables) (b q : ℕ) : Option Tables :=
  let s := t.sb.inherit b q
  let r := Sb.regionOf (s.marks b)
  let k := s.pageIndex b
  match (s.area r).pte k with
  | none => (s.freeBlock o b).map fun s => { t with sb := s }
  | some _ =>
    let t := setSlot r k q { t with sb := s.moveSlot r k b q }
    (t.sb.freeBlock o b).map fun s => { t with sb := s }

/-- `_level_type_vmap` of the page of the block `b`. -/
def levelTypeVmap (o o' : Surroundings) (t : Tables) (b : ℕ) : Option Tables :=
  match t.sb.newBlock o with
  | (.ok q, s) => migrateTo o' { t with sb := s } b q
  | (.error .enomem, s) => some { t with sb := s }
  | (.error .enospc, s) => migrateTo o' { t with sb := s } b b

/-- A call; `none` is a bad store in the allocator. -/
def exec (t : Tables) : Sb.Call → Option Tables
  | .newBlock o => some { t with sb := (t.sb.newBlock o).2 }
  | .freeBlock b o => (t.sb.freeBlock o b).map fun s => { t with sb := s }
  | .map b => some (t.wpmfsMapDynamicPage b)
  | .migrate b o o' => t.levelTypeVmap o o' b

/-- Blocks are freed and mapped that the allocator has handed out, not those that were reserved, and
marked pages are migrated. -/
def Legal (t : Tables) : Sb.Call → Prop
  | .newBlock _ => True
  | .freeBlock b _ => t.sb.alloc.InUse b ∧ t.headBlocknr + 10 ≤ b
  | .map b => t.sb.alloc.InUse b ∧ t.headBlocknr + 10 ≤ b
  | .migrate b _ _ => t.sb.alloc.InUse b ∧ (t.sb.marks b).pageVmap = true

/-- A page is mapped while there is room in the ten blocks of the dynamic table. -/
def HasRoom (t : Tables) : Sb.Call → Prop
  | .map _ => (t.sb.area .dynamic).pages < dynamicSlots
  | _ => True

inductive Step (ok : Tables → Sb.Call → Prop) (t t' : Tables) : Prop
  | mk (c : Sb.Call) (hlegal : t.Legal c) (hok : ok t c) (hexec : t.exec c = some t')

abbrev Reaches (ok : Tables → Sb.Call → Prop) : Tables → Tables → Prop :=
  Relation.ReflTransGen (Step ok)

end Tables

/-- The tables of a new file system, on pages that hold anything. -/
def Space.format {n : ℕ} (m : Space n) (wear : Bool) (numBins : ℕ) (s : Sb) : Tables :=
  ⟨Sb.hardInit wear (m.initsize / 4096) numBins n s, Sb.mapPages n + n⟩

/-- The address is in the area, or in the direct mapping. -/
def Space.Inside {n : ℕ} (m : Space n) (s : Sb) (r : Option Region) (addr : ℕ) : Prop :=
  m.start r ≤ addr ∧ addr < m.start r + m.size s r

/-- Block offsets stand for addresses: each is that of one address, sums agree with those of
addresses, and lookups give the block that is behind the address. -/
structure Space.Encodes {n : ℕ} (m : Space n) (t : Tables) : Prop where
  roundTrip : ∀ r addr, m.Inside t.sb r addr → (r ≠ some .dynamic → addr ≠ m.start r) →
    (m.wpmfsRegetBlockoff t.sb addr).bind m.wpmfsGetBlock = some addr
  add : ∀ r addr k, m.Inside t.sb r addr → m.Inside t.sb r (addr + k) →
    m.wpmfsRegetBlockoff t.sb (addr + k) = (m.wpmfsRegetBlockoff t.sb addr).map (· + k)
  apart : ∀ r r' addr addr', m.Inside t.sb r addr → m.Inside t.sb r' addr' → r ≠ r' →
    m.wpmfsRegetBlockoff t.sb addr ≠ m.wpmfsRegetBlockoff t.sb addr'
  backed : ∀ r addr, r ≠ some .static → m.Inside t.sb r addr → ∃ b v,
    m.backing t.sb r addr = some b ∧ m.wpmfsRegetBlockoff t.sb addr = some v ∧
      t.wpmfsRegetBlocknr v = some b ∧ t.wpmfsGetPfn m v = some (m.pfn0 + b)

variable {n : ℕ} {m : Space n} {s s' : Sb} {t t' : Tables} {r r' : Option Region} {g : Region}
  {addr addr' k b q val l i j v x : ℕ} {o o' : Surroundings} {c : PageMarks}

/-! ## Block offsets -/

theorem blockoff_val (h : val < 2 ^ 57) : blockoff val l % 2 ^ 57 = val := by
  unfold blockoff
  omega

theorem blockoff_direct (h : val < 2 ^ 57) : blockoff val 0 = val := by
  unfold blockoff
  omega

theorem blockoff_vlocation (val : ℕ) (h : l < 2 ^ 7) : blockoff val l / 2 ^ 57 % 2 ^ 7 = l := by
  unfold blockoff
  omega

theorem blockoff_add (h : val + k < 2 ^ 57) : blockoff (val + k) l = blockoff val l + k := by
  unfold blockoff
  omega

theorem vlocation_lt (r : Option Region) : vlocation r < 2 ^ 7 := by
  rcases r with _ | _ | _ <;> decide

theorem vlocation_inj (h : vlocation r = vlocation r') : r = r' := by
  rcases r with _ | _ | _ <;> rcases r' with _ | _ | _ <;> first | rfl | cases h

namespace Space

/-- The static area is of its `n` pages, and the dynamic one of no more than there are slots. -/
structure Fits (m : Space n) (s : Sb) : Prop where
  static : (s.area .static).pages = n
  dynamic : (s.area .dynamic).pages ≤ dynamicSlots

theorem Fits.size_le (h : m.Fits s) : 4096 * (s.area .dynamic).pages ≤ vmSize := by
  have hslots := h.dynamic
  rw [dynamicSlots] at hslots
  rw [vmSize]
  omega

theorem Inside.offset_lt (h : m.Fits s) (hin : m.Inside s r addr) :
    addr - m.start r < 2 ^ 57 := by
  have hphysical := m.physical
  have hreserved := m.reserved
  have hsize := h.size_le
  obtain ⟨hle, hlt⟩ := hin
  rcases r with _ | _ | _
  · simp only [size] at hlt
    omega
  · simp only [size, h.static] at hlt
    omega
  · simp only [size] at hlt
    rw [vmSize] at hsize
    omega

theorem Inside.wpmfsRegetBlockoff (h : m.Fits s) (hin : m.Inside s r addr) :
    m.wpmfsRegetBlockoff s addr = some (blockoff (addr - m.start r) (vlocation r)) := by
  have hvirtual := m.virtual
  have hstatic := m.static
  have hdynamic := m.dynamic
  have hapart := m.apart
  have hdirect := m.direct
  have hsize := h.size_le
  obtain ⟨hle, hlt⟩ := hin
  rcases r with _ | _ | _ <;> simp only [start, size] at hle hlt
  · have hout : m.isVmallocAddr addr = false := by
      rw [isVmallocAddr, decide_eq_false_iff_not]
      omega
    have hsub : (addr + 2 ^ 64 - m.virtAddr) % 2 ^ 64 = addr - m.virtAddr := by omega
    rw [Space.wpmfsRegetBlockoff, hout, hsub]
    rfl
  · rw [h.static] at hlt
    have hin : m.isVmallocAddr addr = true := by
      rw [isVmallocAddr, decide_eq_true_eq]
      omega
    rw [Space.wpmfsRegetBlockoff, hin, if_neg (by decide), h.static, if_pos ⟨hle, hlt⟩]
    rfl
  · have hin : m.isVmallocAddr addr = true := by
      rw [isVmallocAddr, decide_eq_true_eq]
      omega
    rw [Space.wpmfsRegetBlockoff, hin, if_neg (by decide), h.static, if_neg (by omega),
      if_pos ⟨hle, hlt⟩]
    rfl

theorem Inside.lt (h : m.Fits s) (hin : m.Inside s r addr) : addr < 2 ^ 64 := by
  have hvirtual := m.virtual
  have hstatic := m.static
  have hdynamic := m.dynamic
  have hsize := h.size_le
  have hend := hin.2
  rcases r with _ | _ | _
  · simp only [start, size] at hend
    omega
  · simp only [start, size, h.static] at hend
    omega
  · simp only [start, size] at hend
    omega

theorem Inside.offset_ne_zero (hin : m.Inside s r addr)
    (hne : r ≠ some .dynamic → addr ≠ m.start r) :
    r ≠ some .dynamic → addr - m.start r ≠ 0 := by
  intro hr
  have hstart := hne hr
  have hle := hin.1
  omega

theorem Inside.wpmfsGetBlock (h : m.Fits s) (hin : m.Inside s r addr)
    (hne : r ≠ some .dynamic → addr ≠ m.start r) :
    m.wpmfsGetBlock (blockoff (addr - m.start r) (vlocation r)) = some addr := by
  have hback : (m.start r + (addr - m.start r)) % 2 ^ 64 = addr := by
    rw [Nat.add_sub_cancel' hin.1, Nat.mod_eq_of_lt (hin.lt h)]
  have hpos := hin.offset_ne_zero hne
  rw [Space.wpmfsGetBlock, blockoff_val (hin.offset_lt h), blockoff_vlocation _ (vlocation_lt r)]
  rcases r with _ | _ | _
  · exact (if_neg (hpos nofun)).trans (congrArg some hback)
  · exact (if_neg (hpos nofun)).trans (congrArg some hback)
  · exact congrArg some hback

/-- On blocks, `wpmfs_get_block` is followed by the page table. -/
theorem Inside.sb_wpmfsGetBlock (h : m.Fits s) (hin : m.Inside s r addr)
    (hne : r ≠ some .dynamic → addr ≠ m.start r) :
    s.wpmfsGetBlock (blockoff (addr - m.start r) (vlocation r)) = m.backing s r addr := by
  have hpos := hin.offset_ne_zero hne
  rw [Sb.wpmfsGetBlock, blockoff_val (hin.offset_lt h), blockoff_vlocation _ (vlocation_lt r)]
  rcases r with _ | _ | _
  · exact if_neg (hpos (by simp))
  · exact if_neg (hpos (by simp))
  · rfl

end Space

/-! ## The table in memory -/

/-- The old page keeps its marks and its index. -/
theorem Sb.inherit_marks : (s.inherit b q).marks b = s.marks b := by
  rw [Sb.marks, Sb.inherit, Factory.markPage_pageMarks, Function.update_apply, Sb.marks]
  split <;> rfl

theorem Sb.inherit_pageIndex : (s.inherit b q).pageIndex b = s.pageIndex b := by
  simp only [Sb.inherit, Function.update_apply]
  split <;> rfl

namespace Tables

/-- The ten blocks of the dynamic table. -/
def IsTable (t : Tables) (b : ℕ) : Prop := t.headBlocknr ≤ b ∧ b < t.headBlocknr + 10

@[simp] theorem setSlot_alloc : (setSlot g k b t).sb.alloc = t.sb.alloc := by
  cases g <;> rfl

@[simp] theorem setSlot_headBlocknr : (setSlot g k b t).headBlocknr = t.headBlocknr := by
  cases g <;> rfl

theorem mptable_setSlot_dynamic :
    (setSlot .dynamic k b t).mptable j = if j = k then b else t.mptable j := by
  have hplace : t.headBlocknr + k / 512 = t.headBlocknr + j / 512 ∧ k % 512 = j % 512 ↔
      j = k := by omega
  simp only [mptable, setSlot, Sb.word_setWord, hplace]

theorem mptable_setSlot_static (hk : mptablesWords + k < 512 * t.headBlocknr) :
    (setSlot .static k b t).mptable j = t.mptable j := by
  simp only [mptable, setSlot, Sb.word_setWord]
  rw [if_neg]
  omega

/-- What is copied to a block that is none of the table does not change its slots. -/
theorem mptable_moveSlot (hq : ¬t.IsTable q) (hj : j < dynamicSlots) :
    mptable { t with sb := (t.sb.inherit b q).moveSlot g k b q } j = t.mptable j := by
  have hne : t.headBlocknr + j / 512 ≠ q := by
    rintro rfl
    rw [dynamicSlots] at hj
    exact hq ⟨by omega, by omega⟩
  simp only [mptable, Sb.word, Sb.moveSlot, Sb.inherit]
  split
  · rfl
  · rw [Function.update_of_ne hne]

end Tables

/-- What a run keeps: the allocator does not give away the table, and the pages that a slot of it
stands for are behind the addresses of the slot. -/
structure Space.Kept (m : Space n) (t : Tables) : Prop where
  fits : m.Fits t.sb
  head : t.headBlocknr = Sb.mapPages n + n
  alloc : t.sb.alloc.Inv (Sb.mapPages n) (m.initsize / 4096)
  table : ∀ b, t.IsTable b → t.sb.alloc.InUse b ∧ (t.sb.marks b).pageVmap = false
  index : ∀ b, (t.sb.marks b).pageVmap = true →
    t.sb.pageIndex b < (t.sb.area (Sb.regionOf (t.sb.marks b))).pages
  slots : ∀ k < (t.sb.area .dynamic).pages, (t.sb.area .dynamic).pte k = some (t.mptable k)

namespace Space

open Tables

/-- The allocator changes, but it does not mark pages as mapped. -/
theorem Kept.setAlloc {a : Factory} (h : m.Kept t)
    (ha : a.Inv (Sb.mapPages n) (m.initsize / 4096)) (huse : ∀ b, t.IsTable b → a.InUse b)
    (hmarks : ∀ b, (a.pageMarks b).pageVmap = true → a.pageMarks b = t.sb.marks b) :
    m.Kept { t with sb := { t.sb with alloc := a } } := by
  refine ⟨⟨h.fits.static, h.fits.dynamic⟩, h.head, ha, fun b hb => ⟨huse b hb, ?_⟩,
    fun b hb => ?_, h.slots⟩
  · by_contra hmark
    rw [Bool.not_eq_false] at hmark
    have hold := (h.table b hb).2
    rw [← hmarks b hmark] at hold
    exact absurd (hold.symm.trans hmark) (by decide)
  · have hsame : Sb.marks { t.sb with alloc := a } b = t.sb.marks b := hmarks b hb
    rw [hsame] at hb ⊢
    exact h.index b hb

/-- The marks of a page that the allocator gives or takes. -/
theorem marks_update {a : Factory} (hmarks : a.pageMarks =
    Function.update t.sb.alloc.pageMarks q (t.sb.alloc.markOf q)) (b : ℕ)
    (hb : (a.pageMarks b).pageVmap = true) : a.pageMarks b = t.sb.marks b := by
  rw [hmarks] at hb ⊢
  by_cases hbq : b = q
  · subst hbq
    rw [Function.update_self] at hb ⊢
    cases halloc : t.sb.alloc with
    | wear r =>
      rw [halloc] at hb
      cases hb
    | ranges r marks =>
      rw [Sb.marks, halloc]
      rfl
  · rw [Function.update_of_ne hbq]
    rfl

theorem Kept.handed {a : Factory} (h : m.Kept t)
    (ha : Factory.Handed (Sb.mapPages n) (m.initsize / 4096) t.sb.alloc q a) :
    m.Kept { t with sb := { t.sb with alloc := a } } :=
  h.setAlloc ha.inv (fun b hb => (ha.inUse b).mpr (.inl (h.table b hb).1)) (marks_update ha.marks)

theorem Kept.same {a : Factory} (h : m.Kept t)
    (ha : Factory.Same (Sb.mapPages n) (m.initsize / 4096) t.sb.alloc a) :
    m.Kept { t with sb := { t.sb with alloc := a } } :=
  h.setAlloc ha.inv (fun b hb => (ha.inUse b).mpr (h.table b hb).1) fun b _ =>
    congrFun ha.marks b

theorem Kept.freeBlock (h : m.Kept t) (hb : t.sb.alloc.InUse b) (hout : ¬t.IsTable b)
    (hfree : t.sb.freeBlock o b = some s') : m.Kept { t with sb := s' } := by
  obtain ⟨a, ha, rfl⟩ := Option.map_eq_some_iff.mp hfree
  rcases h.alloc.freeBlock hb ha with hspec | ⟨-, -, hspec⟩
  · refine h.setAlloc hspec.inv (fun x hx => (hspec.inUse x).mpr ⟨(h.table x hx).1, ?_⟩)
      (marks_update hspec.marks)
    rintro rfl
    exact hout hx
  · exact h.same hspec

/-- A page of no table block comes behind a slot, and the slot names it. -/
theorem Kept.record (h : m.Kept t) (hrec : t.sb.Records g k q c t'.sb)
    (hg : Sb.regionOf c = g) (hq : ¬t.IsTable q) (hfits : m.Fits t'.sb)
    (halloc : t'.sb.alloc.Inv (Sb.mapPages n) (m.initsize / 4096))
    (hhead : t'.headBlocknr = t.headBlocknr)
    (hmem : ∀ j < dynamicSlots,
      t'.mptable j = if g = .dynamic ∧ j = k then q else t.mptable j) : m.Kept t' := by
  refine ⟨hfits, hhead.trans h.head, halloc, fun b hb => ?_, fun b hb => ?_, fun j hj => ?_⟩
  · have hb : t.IsTable b := by rwa [IsTable, hhead] at hb
    have hne : b ≠ q := by
      rintro rfl
      exact hq hb
    rw [hrec.inUse, hrec.marks_of_ne hne]
    exact h.table b hb
  · by_cases hbq : b = q
    · subst hbq
      rw [hrec.marks_self, hg, hrec.index, Function.update_self]
      exact hrec.lt
    · rw [hrec.marks_of_ne hbq] at hb ⊢
      have hold := h.index b hb
      rw [hrec.index, Function.update_of_ne hbq]
      by_cases hregion : Sb.regionOf (t.sb.marks b) = g
      · rw [hregion] at hold ⊢
        exact (hrec.pages _).mpr (.inr hold)
      · rwa [hrec.other _ hregion]
  · rw [hmem j (hj.trans_le hfits.dynamic)]
    by_cases hself : g = .dynamic ∧ j = k
    · obtain ⟨rfl, rfl⟩ := hself
      rw [if_pos ⟨rfl, rfl⟩, hrec.pte, Function.update_self]
    · obtain ⟨-, hpte, hpages⟩ := hrec.keeps .dynamic j (by tauto)
      rw [if_neg hself, hpte]
      exact h.slots j (hpages.mp hj)

theorem Kept.map (h : m.Kept t) (hout : ¬t.IsTable b)
    (hroom : (t.sb.area .dynamic).pages < dynamicSlots) :
    m.Kept (t.wpmfsMapDynamicPage b) := by
  refine h.record (t.sb.records_map b).setWord rfl
    hout ⟨?_, ?_⟩ h.alloc.markPage rfl fun j _ => ?_
  · exact h.fits.static
  · exact hroom
  · rw [wpmfsMapDynamicPage, mptable_setSlot_dynamic]
    simp only [true_and]
    rfl

theorem Kept.inherit (h : m.Kept t) (hb : (t.sb.marks b).pageVmap = true) (hq : ¬t.IsTable q) :
    m.Kept { t with sb := t.sb.inherit b q } := by
  have hmarks : ∀ x, (t.sb.inherit b q).marks x =
      if x = q then t.sb.marks b else t.sb.marks x := by
    intro x
    rw [Sb.marks, Sb.inherit, Factory.markPage_pageMarks, Function.update_apply]
    rfl
  refine ⟨⟨h.fits.static, h.fits.dynamic⟩, h.head, h.alloc.markPage, fun x hx => ⟨?_, ?_⟩,
    fun x hx => ?_, h.slots⟩
  · exact Factory.markPage_inUse.mpr (h.table x hx).1
  · rw [hmarks, if_neg]
    · exact (h.table x hx).2
    · rintro rfl
      exact hq hx
  · rw [hmarks] at hx ⊢
    by_cases hxq : x = q
    · subst hxq
      rw [if_pos rfl]
      simpa [Sb.inherit] using h.index b hb
    · rw [if_neg hxq] at hx ⊢
      simpa [Sb.inherit, hxq] using h.index x hx

theorem Kept.moveSlot (h : m.Kept t) (hb : (t.sb.marks b).pageVmap = true) (hq : ¬t.IsTable q) :
    m.Kept (setSlot (Sb.regionOf (t.sb.marks b)) (t.sb.pageIndex b) q
      { t with
        sb := (t.sb.inherit b q).moveSlot (Sb.regionOf (t.sb.marks b)) (t.sb.pageIndex b) b
          q }) := by
  have hlt := h.index b hb
  have hrec := Sb.records_move q hlt
  generalize hregion : Sb.regionOf (t.sb.marks b) = g at hrec hlt ⊢
  generalize t.sb.pageIndex b = k at hrec hlt ⊢
  have hpages : ∀ g', (((t.sb.inherit b q).moveSlot g k b q).area g').pages =
      (t.sb.area g').pages := by
    intro g'
    by_cases hg' : g' = g
    · subst hg'
      simp [Sb.moveSlot, Sb.inherit, Area.setPte, Area.flushSlot, Area.setSlot]
    · rw [hrec.other g' hg']
  have hfits : m.Fits ((t.sb.inherit b q).moveSlot g k b q) :=
    ⟨(hpages _).trans h.fits.static, (hpages _).trans_le h.fits.dynamic⟩
  cases g with
  | static =>
    refine h.record hrec.setWord hregion hq ⟨hfits.static, hfits.dynamic⟩
      h.alloc.markPage rfl fun j hj => ?_
    rw [mptable_setSlot_static, mptable_moveSlot hq hj]
    · rfl
    · have hhead := h.head
      rw [h.fits.static] at hlt
      rw [Sb.mapPages, mptablesWords] at hhead
      rw [mptablesWords]
      change 3 + k < 512 * t.headBlocknr
      omega
  | dynamic =>
    refine h.record hrec.setWord hregion hq ⟨hfits.static, hfits.dynamic⟩
      h.alloc.markPage rfl fun j hj => ?_
    rw [mptable_setSlot_dynamic, mptable_moveSlot hq hj]
    simp only [true_and]

theorem Kept.not_table (h : m.Kept t) (hb : (t.sb.marks b).pageVmap = true) : ¬t.IsTable b := by
  intro hin
  rw [(h.table b hin).2] at hb
  cases hb

theorem Kept.migrateTo (h : m.Kept t) (huse : t.sb.alloc.InUse b)
    (hb : (t.sb.marks b).pageVmap = true) (hq : ¬t.IsTable q)
    (hmigrate : t.migrateTo o b q = some t') : m.Kept t' := by
  rw [Tables.migrateTo] at hmigrate
  simp only [Sb.inherit_marks, Sb.inherit_pageIndex] at hmigrate
  split at hmigrate
  · obtain ⟨s', hfree, rfl⟩ := Option.map_eq_some_iff.mp hmigrate
    exact (h.inherit hb hq).freeBlock (Factory.markPage_inUse.mpr huse) (h.not_table hb) hfree
  · obtain ⟨s', hfree, rfl⟩ := Option.map_eq_some_iff.mp hmigrate
    refine (h.moveSlot hb hq).freeBlock ?_ ?_ hfree
    · rw [setSlot_alloc]
      exact Factory.markPage_inUse.mpr huse
    · rw [IsTable, setSlot_headBlocknr]
      exact h.not_table hb

theorem Kept.newBlock (h : m.Kept t) : m.Kept { t with sb := (t.sb.newBlock o).2 } := by
  cases hnew : t.sb.alloc.newBlock o with
  | mk res a =>
    rw [Sb.newBlock, hnew]
    cases res with
    | ok q => exact h.handed (h.alloc.newBlock hnew)
    | error e => exact h.same (h.alloc.newBlock_error hnew).1

theorem Kept.levelTypeVmap (h : m.Kept t) (huse : t.sb.alloc.InUse b)
    (hb : (t.sb.marks b).pageVmap = true) (hmigrate : t.levelTypeVmap o o' b = some t') :
    m.Kept t' := by
  rw [Tables.levelTypeVmap, Sb.newBlock] at hmigrate
  cases hnew : t.sb.alloc.newBlock o with
  | mk res a =>
    rw [hnew] at hmigrate
    cases res with
    | ok q =>
      have hspec := h.alloc.newBlock hnew
      have hout : ¬t.IsTable q := fun hq => h.alloc.disjoint hspec.was (h.table q hq).1
      have hbq : b ≠ q := by
        rintro rfl
        exact h.alloc.disjoint hspec.was huse
      refine (h.handed hspec).migrateTo ((hspec.inUse b).mpr (.inl huse)) ?_ hout hmigrate
      rw [Sb.marks, hspec.marks, Function.update_of_ne hbq]
      exact hb
    | error e =>
      obtain ⟨hspec, -⟩ := h.alloc.newBlock_error hnew
      have hkept := h.same hspec
      cases e with
      | enomem =>
        cases hmigrate
        exact hkept
      | enospc =>
        refine hkept.migrateTo ((hspec.inUse b).mpr huse) ?_ (h.not_table hb) hmigrate
        rw [Sb.marks, hspec.marks]
        exact hb

theorem Kept.step (h : m.Kept t) (hstep : Step HasRoom t t') : m.Kept t' := by
  obtain ⟨c, hlegal, hok, hexec⟩ := hstep
  cases c with
  | newBlock o =>
    cases hexec
    exact h.newBlock
  | freeBlock b o =>
    obtain ⟨s', hfree, rfl⟩ := Option.map_eq_some_iff.mp hexec
    exact h.freeBlock hlegal.1 (fun hin => absurd hin.2 (Nat.not_lt.mpr hlegal.2)) hfree
  | map b =>
    cases hexec
    exact h.map (fun hin => absurd hin.2 (Nat.not_lt.mpr hlegal.2)) hok
  | migrate b o o' => exact h.levelTypeVmap hlegal.1 hlegal.2 hexec

theorem Kept.reaches (h : m.Kept t) (hrun : Reaches HasRoom t t') : m.Kept t' := by
  induction hrun with
  | refl => exact h
  | tail _ hstep ih => exact ih.step hstep

theorem kept_format {wear : Bool} {numBins : ℕ} (hbins : 0 < numBins)
    (hblank : ∀ x, (s.marks x).pageVmap = false) : m.Kept (m.format wear numBins s) := by
  have hsound := @Sb.sound_hardInit s n wear (m.initsize / 4096) numBins hbins m.reserved hblank
  have hres : reservedBlocks (4096 * (Sb.mapPages n + n + 10)) = Sb.mapPages n + n + 10 := by
    rw [reservedBlocks]
    omega
  refine ⟨⟨?_, Nat.zero_le _⟩, rfl, hsound.alloc, fun b hb => ⟨?_, ?_⟩, fun b hb => ?_,
    fun k hk => absurd hk (Nat.not_lt_zero k)⟩
  · rw [format, Sb.hardInit_static, Sb.setupVmapStatic, Sb.setArea_self]
  · refine Factory.start_inUse.mpr ?_
    rw [hres]
    exact ⟨(Nat.le_add_right _ _).trans hb.1, hb.2⟩
  · have hmarks : (m.format wear numBins s).sb.marks b =
        (Sb.setupTable (Sb.mapPages n + n) 10 (Sb.setupVmapStatic n s)).marks b := by
      rw [format, Sb.marks, Sb.hardInit, Factory.start_pageMarks]
      rfl
    rw [hmarks, Sb.setupTable_marks]
    exact congrArg PageMarks.pageVmap (if_pos hb)
  · obtain ⟨k, hk, hslot⟩ := hsound.marked b hb
    have hmapped := hsound.mapped _ k hk
    rw [hslot] at hmapped
    exact lt_of_eq_of_lt hmapped.index hk

/-! ## The main result -/

/-- The lookups read the slot of the page that the offset is in. -/
theorem Kept.backed (h : m.Kept t) (hr : r ≠ some .static) (hin : m.Inside t.sb r addr) :
    ∃ b, m.backing t.sb r addr = some b ∧
      t.wpmfsRegetBlocknr (blockoff (addr - m.start r) (vlocation r)) = some b ∧
      t.wpmfsGetPfn m (blockoff (addr - m.start r) (vlocation r)) = some (m.pfn0 + b) := by
  have hoff := hin.offset_lt h.fits
  have hloc := blockoff_vlocation (addr - m.start r) (vlocation_lt r)
  rw [Tables.wpmfsRegetBlocknr, Tables.wpmfsGetPfn, hloc]
  rcases r with _ | _ | _
  · have hdirect := blockoff_direct hoff
    exact ⟨_, rfl, congrArg (fun v => some (v / 4096)) hdirect,
      congrArg (fun v => some (m.pfn0 + v / 4096)) hdirect⟩
  · exact absurd rfl hr
  · have hval := blockoff_val (l := vlocation (some .dynamic)) hoff
    obtain ⟨hle, hlt⟩ := hin
    have hk : (addr - m.start (some .dynamic)) / 4096 < (t.sb.area .dynamic).pages := by
      simp only [size] at hlt
      omega
    exact ⟨_, h.slots _ hk, congrArg (fun v => some (t.mptable (v / 4096))) hval,
      congrArg (fun v => some (m.pfn0 + t.mptable (v / 4096))) hval⟩

/-- What the invariant is for. -/
theorem encodes_of_kept (h : m.Kept t) : m.Encodes t := by
  have hfits := h.fits
  refine ⟨fun r addr hin hne => ?_, fun r addr k hin hin' => ?_,
    fun r r' addr addr' hin hin' hne heq => ?_, fun r addr hr hin => ?_⟩
  · rw [hin.wpmfsRegetBlockoff hfits, Option.bind_some]
    exact hin.wpmfsGetBlock hfits hne
  · have hsum : addr + k - m.start r = addr - m.start r + k := Nat.sub_add_comm hin.1
    have hlt := hin'.offset_lt hfits
    rw [hsum] at hlt
    rw [hin.wpmfsRegetBlockoff hfits, hin'.wpmfsRegetBlockoff hfits, hsum, blockoff_add hlt,
      Option.map_some]
  · rw [hin.wpmfsRegetBlockoff hfits, hin'.wpmfsRegetBlockoff hfits, Option.some.injEq] at heq
    have hloc := blockoff_vlocation (addr - m.start r) (vlocation_lt r)
    rw [heq, blockoff_vlocation _ (vlocation_lt r')] at hloc
    exact hne (vlocation_inj hloc.symm)
  · obtain ⟨b, hb, hlookups⟩ := h.backed hr hin
    exact ⟨b, _, hb, hin.wpmfsRegetBlockoff hfits, hlookups⟩

end Space

/-- From the setup on, on pages of which none was marked, block offsets stand for addresses as long
as the dynamic table has room for the pages that are mapped. -/
theorem Tables.Reaches.encodes {wear : Bool} {numBins : ℕ} (hbins : 0 < numBins)
    (hblank : ∀ x, (s.marks x).pageVmap = false)
    (hrun : Tables.Reaches Tables.HasRoom (m.format wear numBins s) t) : m.Encodes t :=
  Space.encodes_of_kept ((Space.kept_format hbins hblank).reaches hrun)

/-- A device of 32 MiB with 17 reserved pages. -/
def space : Space 17 where
  physAddr := 0x100000000
  initsize := 0x2000000
  virtAddr := 0xffff888100000000
  vmallocStart := 0xffffc90000000000
  vmallocEnd := 0xffffe90000000000
  baseStatic := 0xffffc90080000000
  baseDynamic := 0xffffc90000000000
  physical := by decide
  virtual := by decide
  direct := by decide
  static := by decide
  dynamic := by decide
  apart := by decide
  reserved := by decide

/-- A page that was mapped, and then migrated. -/
def moved : Tables :=
  let t := space.format true 4 Sb.blank
  let t : Tables := { t with sb := (t.sb.newBlock Sb.calm).2 }
  let t := t.wpmfsMapDynamicPage 28
  (t.levelTypeVmap Sb.calm Sb.calm 28).getD t

theorem encodes_moved : Tables.Reaches Tables.HasRoom (space.format true 4 Sb.blank) moved ∧
    space.Encodes moved ∧ moved.wpmfsRegetBlocknr (blockoff 0 2) = some 29 := by
  have hroom : 0 < dynamicSlots := by decide
  have hrun : Tables.Reaches Tables.HasRoom (space.format true 4 Sb.blank) moved :=
    ((Relation.ReflTransGen.single ⟨.newBlock Sb.calm, trivial, trivial, rfl⟩).tail
      ⟨.map 28, ⟨List.mem_cons_self .., le_rfl⟩, hroom, rfl⟩).tail
      ⟨.migrate 28 Sb.calm Sb.calm, ⟨List.mem_cons_self .., rfl⟩, trivial, rfl⟩
  exact ⟨hrun, hrun.encodes (by decide) fun _ => rfl, rfl⟩

/-! ## A slot past the table -/

section Overflow

variable {f nodes : ℕ} {owned : List (ℕ × BlockType)} {hint : Option ℕ} {marks : ℕ → PageMarks}

/-- The range-list allocator of the device, with its list. -/
def used (list : List BlockNode) (f nodes : ℕ) (owned : List (ℕ × BlockType)) (hint : Option ℕ)
    (marks : ℕ → PageMarks) : Factory :=
  .ranges ⟨⟨0, 8192, f, nodes, list⟩, owned, hint⟩ marks

/-- After a prefix comes the next block. -/
theorem newBlock_used (hs : s.alloc = used [⟨0, 27 + i⟩] f nodes owned hint marks)
    (hi : i < 8000) : s.newBlock Sb.calm = (.ok (28 + i), { s with
      alloc := used [⟨0, 27 + (i + 1)⟩] (f - 1) nodes ((28 + i, .b4K) :: owned) none marks }) := by
  have hplace : RangeAlloc.placeLoop 8192 1 true nodes [⟨0, 27 + i⟩] =
      .found (28 + i) [⟨0, 27 + (i + 1)⟩] nodes := by
    have hnext : 27 + i + 1 = 28 + i := by omega
    have hend : 27 + (i + 1) = 28 + i := by omega
    simp only [RangeAlloc.placeLoop, RangeAlloc.place, Nat.div_one, Nat.mul_one, hnext,
      Nat.add_sub_cancel, true_and]
    rw [if_neg (by omega), if_neg (by omega), if_pos (by omega), hend]
  rw [Sb.newBlock, hs]
  simp only [used, Factory.newBlock, RangeAlloc.pmfsNewBlock, pmfsGetNumblocks, Sb.calm, hplace]

/-- A gap is filled first. -/
theorem newBlock_gap (hs : s.alloc = used [⟨0, 27⟩, ⟨29, 5149⟩] f nodes owned hint marks) :
    s.newBlock Sb.calm = (.ok 28, { s with
      alloc := used [⟨0, 5149⟩] (f - 1) (nodes - 1) ((28, .b4K) :: owned) none marks }) := by
  rw [Sb.newBlock, hs]
  simp [used, Factory.newBlock, RangeAlloc.pmfsNewBlock, RangeAlloc.placeLoop, RangeAlloc.place,
    pmfsGetNumblocks]

/-- A block in a range is given back. -/
theorem freeBlock_used (f nodes : ℕ) (owned : List (ℕ × BlockType)) (hint : Option ℕ)
    (marks : ℕ → PageMarks) : (used [⟨0, 5149⟩] f nodes owned hint marks).freeBlock Sb.calm 28 =
      some (used [⟨0, 27⟩, ⟨29, 5149⟩] (f + 1) (nodes + 1) (owned.erase (28, .b4K)) (some 1)
        marks) := by
  simp [used, Factory.freeBlock, RangeAlloc.pmfsFreeBlock, RangeAlloc.startPos, pmfsGetNumblocks,
    RangeAlloc.carveLoop, RangeAlloc.carve, Sb.calm]

/-- There is no bad store while blocks are in use. -/
theorem exists_freeBlock_used {node : BlockNode} {list : List BlockNode} :
    ∃ a, (used (node :: list) f nodes owned hint marks).freeBlock o b = some a := by
  simp only [used, Factory.freeBlock, RangeAlloc.pmfsFreeBlock]
  rw [if_neg (by simp)]
  split <;> exact ⟨_, rfl⟩

/-- What a migration leaves of the page tables and of the table. -/
theorem exists_migrateTo (hm : t.sb.marks b = c) (hk : t.sb.pageIndex b = k)
    (hpte : (t.sb.area (Sb.regionOf c)).pte k = some x)
    (hfree : ∃ a, (t.sb.alloc.markPage q c).freeBlock o b = some a) :
    ∃ t', t.migrateTo o b q = some t' ∧
      t'.sb.area = ((t.sb.inherit b q).moveSlot (Sb.regionOf c) k b q).area ∧
      t'.mptable = (Tables.setSlot (Sb.regionOf c) k q
        { t with sb := (t.sb.inherit b q).moveSlot (Sb.regionOf c) k b q }).mptable := by
  obtain ⟨a, ha⟩ := hfree
  have hpte' : ((t.sb.inherit b q).area (Sb.regionOf c)).pte k = some x := hpte
  refine ⟨⟨{ (Tables.setSlot (Sb.regionOf c) k q
    { t with sb := (t.sb.inherit b q).moveSlot (Sb.regionOf c) k b q }).sb with alloc := a },
    t.headBlocknr⟩, ?_, ?_, ?_⟩
  · rw [Tables.migrateTo]
    simp only [Sb.inherit_marks, Sb.inherit_pageIndex, hm, hk, hpte', Sb.freeBlock]
    rw [Tables.setSlot_alloc]
    change Option.map _ (Option.map _ ((t.sb.alloc.markPage q (t.sb.marks b)).freeBlock o b)) = _
    rw [hm, ha, Tables.setSlot_headBlocknr]
    rfl
  · cases Sb.regionOf c <;> rfl
  · cases Sb.regionOf c <;> rfl

/-- The blocks from 28 on were handed out one after the other, and `i` of them were mapped, from the
second one on. Their pages hold zeroes. -/
structure Filled (i : ℕ) (t : Tables) : Prop where
  run : Tables.Reaches (fun _ _ => True) (space.format false 4 Sb.blank) t
  alloc : ∃ f nodes owned hint marks,
    t.sb.alloc = used [⟨0, 27 + (i + 1)⟩] f nodes owned hint marks ∧
      ∀ b, 28 ≤ b → b ≤ 28 + i → (b, .b4K) ∈ owned
  head : t.headBlocknr = 18
  pages : (t.sb.area .dynamic).pages = i
  slots : ∀ k < i, (t.sb.area .dynamic).pte k = some (29 + k)
  first : 0 < i → t.sb.marks 29 = Sb.mappedMarks .dynamic ∧ t.sb.pageIndex 29 = 0
  words : ∀ b, 29 ≤ b → t.sb.words b 0 = 0

theorem setupTable_words {first : ℕ} (h : ∀ b, s.words b 0 = 0) (b : ℕ) :
    (Sb.setupTable first n s).words b 0 = 0 := by
  induction n with
  | zero => exact h b
  | succ n ih =>
    simp only [Sb.setupTable, Function.update_apply]
    split
    · rfl
    · exact ih

theorem filled_zero : ∃ t, Filled 0 t := by
  have hstart : (space.format false 4 Sb.blank).sb.alloc = used [⟨0, 27 + 0⟩] 8164 1
      ((List.range' 1 27).map (·, .b4K)) none (space.format false 4 Sb.blank).sb.marks := rfl
  have hstep : Tables.Step (fun _ _ => True) (space.format false 4 Sb.blank) _ :=
    ⟨.newBlock Sb.calm, trivial, trivial, rfl⟩
  rw [newBlock_used hstart (by decide)] at hstep
  refine ⟨_, .single hstep, ⟨_, _, _, _, _, rfl, fun b hb hle => ?_⟩, rfl, rfl, by simp, by simp,
    fun b _ => ?_⟩
  · obtain rfl : b = 28 := by omega
    exact List.mem_cons_self ..
  · exact @setupTable_words 10 (Sb.setupVmapStatic 17 Sb.blank) 18 (fun _ => rfl) b

/-- One more block is handed out and mapped. -/
theorem Filled.succ (h : Filled i t) (hi : i < 5200) : ∃ t', Filled (i + 1) t' := by
  obtain ⟨f, nodes, owned, hint, marks, halloc, howned⟩ := h.alloc
  have hlast : 28 + (i + 1) = 29 + i := by omega
  have hnew := newBlock_used halloc (by omega)
  rw [hlast] at hnew
  generalize ht₁ : ({ t with sb := (t.sb.newBlock Sb.calm).2 } : Tables) = t₁
  have hstep : Tables.Step (fun _ _ => True) t t₁ :=
    ⟨.newBlock Sb.calm, trivial, trivial, congrArg some ht₁⟩
  rw [hnew] at ht₁
  subst ht₁
  have hin : 18 + 10 ≤ 29 + i := by omega
  refine ⟨_, (h.run.tail hstep).tail
    ⟨.map (29 + i), ⟨List.mem_cons_self .., h.head ▸ hin⟩, trivial, rfl⟩,
    ⟨_, _, _, _, _, rfl, fun b hb hle => ?_⟩, h.head, congrArg (· + 1) h.pages,
    fun j hj => ?_, fun _ => ?_, fun b hb => ?_⟩
  · rcases Nat.lt_or_ge b (29 + i) with hlt | hge
    · exact List.mem_cons_of_mem _ (howned b hb (by omega))
    · obtain rfl : b = 29 + i := by omega
      exact List.mem_cons_self ..
  · change Function.update (t.sb.area .dynamic).pte (t.sb.area .dynamic).pages
      (some (29 + i)) j = some (29 + j)
    rw [h.pages, Function.update_apply]
    split
    · rename_i hji
      rw [hji]
    · exact h.slots j (by omega)
  · change Function.update marks (29 + i) (Sb.mappedMarks .dynamic) 29 = Sb.mappedMarks .dynamic ∧
      Function.update t.sb.pageIndex (29 + i) (t.sb.area .dynamic).pages 29 = 0
    rcases Nat.eq_zero_or_pos i with rfl | hpos
    · exact ⟨Function.update_self .., (Function.update_self ..).trans h.pages⟩
    · obtain ⟨hfirst, hindex⟩ := h.first hpos
      have hne : 29 ≠ 29 + i := by omega
      rw [Sb.marks, halloc] at hfirst
      exact ⟨(Function.update_of_ne hne ..).trans hfirst,
        (Function.update_of_ne hne ..).trans hindex⟩
  · simp only [Tables.wpmfsMapDynamicPage, Tables.setSlot, Sb.setWord, h.head, h.pages,
      Function.update_apply]
    rw [if_neg (by omega)]
    exact h.words b hb

theorem exists_filled (hi : i ≤ 5200) : ∃ t, Filled i t := by
  induction i with
  | zero => exact filled_zero
  | succ i ih =>
    obtain ⟨t, ht⟩ := ih (by omega)
    exact ht.succ hi

/-- The slot 5120 is the first word of the block 28. This block is given back, and the page of the
block 29 moves to it. -/
theorem Filled.overwritten (h : Filled 5121 t) :
    ∃ t', Tables.Reaches (fun _ _ => True) (space.format false 4 Sb.blank) t' ∧
      t'.mptable 5120 = 0 ∧ (t'.sb.area .dynamic).pages = 5121 ∧
      (t'.sb.area .dynamic).pte 5120 = some 5149 := by
  obtain ⟨f, nodes, owned, hint, marks, halloc, howned⟩ := h.alloc
  obtain ⟨hfirst, hindex⟩ := h.first (by decide)
  have hmarks : marks 29 = Sb.mappedMarks .dynamic := by
    rwa [Sb.marks, halloc] at hfirst
  have hfree := freeBlock_used f nodes owned hint marks
  generalize ht₁ : ({ t with
    sb := { t.sb with
      alloc := used [⟨0, 27⟩, ⟨29, 5149⟩] (f + 1) (nodes + 1) (owned.erase (28, .b4K)) (some 1)
        marks } } : Tables) = t₁
  have hfreed : Tables.Step (fun _ _ => True) t t₁ := by
    refine ⟨.freeBlock 28 Sb.calm, ⟨?_, ?_⟩, trivial, ?_⟩
    · rw [halloc]
      exact howned 28 (by decide) (by decide)
    · rw [h.head]
    · rw [Tables.exec, Sb.freeBlock, halloc, hfree, ← ht₁]
      rfl
  have hnew := @newBlock_gap t₁.sb (f + 1) (nodes + 1) (owned.erase (28, .b4K)) (some 1) marks
    (by rw [← ht₁])
  generalize ht₂ : ({ t₁ with
    sb := { t₁.sb with
      alloc := used [⟨0, 5149⟩] (f + 1 - 1) (nodes + 1 - 1) ((28, .b4K) :: owned.erase (28, .b4K))
        none marks } } : Tables) = t₂
  subst ht₁
  obtain ⟨t', hmigrate, harea, hmptable⟩ := @exists_migrateTo t₂ 0 29 28 29 Sb.calm
    (Sb.mappedMarks .dynamic) (by rw [← ht₂]; exact hmarks) (by rw [← ht₂]; exact hindex)
    (by rw [← ht₂]; exact h.slots 0 (by decide)) (by rw [← ht₂]; exact exists_freeBlock_used)
  refine ⟨t', (h.run.tail hfreed).tail ⟨.migrate 29 Sb.calm Sb.calm, ⟨?_, ?_⟩, trivial, ?_⟩,
    ?_, ?_, ?_⟩
  · exact (List.mem_erase_of_ne (by decide)).mpr (howned 29 (by decide) (by decide))
  · exact congrArg PageMarks.pageVmap hmarks
  · rw [Tables.exec, Tables.levelTypeVmap, hnew]
    rw [← ht₂] at hmigrate
    exact hmigrate
  · rw [hmptable, Sb.regionOf_mappedMarks, Tables.mptable_setSlot_dynamic, if_neg (by decide),
      ← ht₂]
    simp only [Tables.mptable, Sb.word, Sb.moveSlot, Sb.inherit, h.head]
    exact h.words 29 le_rfl
  · rw [harea, Sb.regionOf_mappedMarks, ← ht₂]
    exact h.pages
  · rw [harea, Sb.regionOf_mappedMarks, ← ht₂]
    exact h.slots 5120 (by decide)

/-- The addresses of the page of the slot 5120, which is not in the table. -/
theorem not_encodes : ∃ t, Tables.Reaches (fun _ _ => True) (space.format false 4 Sb.blank) t ∧
    ¬space.Encodes t := by
  obtain ⟨t, ht⟩ := exists_filled (show 5121 ≤ 5200 by decide)
  obtain ⟨t', hrun, hslot, hpages, hpte⟩ := ht.overwritten
  refine ⟨t', hrun, fun h => ?_⟩
  generalize haddr : 0xffffc90000000000 + 4096 * 5120 = addr
  have hin : space.Inside t'.sb (some .dynamic) addr := by
    refine ⟨by rw [← haddr]; decide, ?_⟩
    rw [Space.size, hpages, ← haddr]
    decide
  have hreget : space.wpmfsRegetBlockoff t'.sb addr = some (blockoff (4096 * 5120) 2) := by
    have hvmalloc : space.isVmallocAddr addr = true := by
      rw [← haddr]
      decide
    have hstatic : ¬space.baseStatic ≤ addr := by
      rw [← haddr]
      decide
    have hoff : addr - space.baseDynamic = 4096 * 5120 := by
      rw [← haddr]
      decide
    rw [Space.wpmfsRegetBlockoff, hvmalloc, if_neg (by decide), if_neg fun h => hstatic h.1]
    exact (if_pos hin).trans (congrArg (fun off => some (blockoff off 2)) hoff)
  obtain ⟨b, v, hb, hv, hblock, -⟩ := h.backed (some .dynamic) addr (by simp) hin
  obtain rfl := Option.some.inj (hreget.symm.trans hv)
  have hzero : t'.wpmfsRegetBlocknr (blockoff (4096 * 5120) 2) = some (t'.mptable 5120) := rfl
  have hpage : space.backing t'.sb (some .dynamic) addr = (t'.sb.area .dynamic).pte 5120 := by
    rw [← haddr]
    rfl
  rw [hzero, hslot] at hblock
  rw [hpage, hpte] at hb
  cases hblock
  cases hb

end Overflow

end Wpmfs.Vmap
