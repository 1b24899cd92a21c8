import Wpmfs.Library.UndoLog
import Wpmfs.Migrate.Tree
import Mathlib.Algebra.Order.Ring.Int
import Mathlib.Algebra.Order.Ring.Nat
import Mathlib.Logic.Relation

/-!
# Pointers into tired pages

An operation gets pointers to inodes from `pmfs_get_inode`, logs what is behind them and writes
through them. A lookup of another inode may come across a tired page of the inode table, and moves
it. Pointers and log entries that name a place in the old block stay as they are: what is written or
undone through them does not get to the new one.

The steps are those of one operation after the other, with the turns of a lookup as single steps,
and pages may be marked tired between any two of them. `Inodes` is what the operations are to do: it
names inodes by their numbers and keeps their words from before the transaction. `vmap` is disabled,
so that all block offsets are in the direct mapping.
-/

namespace Wpmfs.Migrate

open Balloc Vmap Radix

/-- The local variables of `pmfs_get_inode` and `__pmfs_find_data_block`, and where the pointer is
to go. -/
structure Lookup where
  x : ℕ
  ino : ℕ
  height : ℕ
  bp : ℕ
  blocknr : ℕ

/-- The file system with the inode pointers, which name a word of a block, and the log of the
transaction. -/
structure Op where
  sb : Sb
  held : ℕ → Option (ℕ × ℕ)
  log : List (UndoLog.Patch (ℕ × ℕ) ℕ)
  lookup : Option Lookup

inductive OpCall where
  /-- `_level_type_stranded`. -/
  | stranded (b : ℕ)
  /-- `pmfs_get_inode` begins. -/
  | getInode (x ino : ℕ)
  /-- A turn of its loop, with what the allocator finds and what is on the stack. -/
  | retrieve (o : Surroundings) (junk : ℕ)
  /-- It returns. -/
  | found
  /-- `pmfs_add_logentry` of the first `n` words of an inode. -/
  | addLogentry (x n : ℕ)
  /-- A store to the word `f` of an inode. -/
  | write (x f v : ℕ)
  /-- The pointer is not used any more. -/
  | drop (x : ℕ)
  | commit
  | abort

namespace Op

/-- `_level_type_stranded`, if there is no contention on the marks. -/
def levelTypeStranded (b : ℕ) (sb : Sb) : Sb :=
  if (sb.marks b).pageUsing then
    { sb with alloc := sb.alloc.markPage b { sb.marks b with pageTired := true } }
  else sb

/-- The words of memory, by their places. -/
def mem (sb : Sb) (a : ℕ × ℕ) : ℕ := sb.words a.1 a.2

/-- What `pmfs_add_logentry` records. -/
def record (sb : Sb) (p : ℕ × ℕ) (n : ℕ) : UndoLog.Patch (ℕ × ℕ) ℕ := fun a =>
  if a.1 = p.1 ∧ p.2 ≤ a.2 ∧ a.2 < p.2 + n then some (mem sb a) else none

/-- A step; `none` is a bad pointer, or a step that is not the next one. -/
def exec (table : PmfsInode) (s : Op) : OpCall → Option Op
  | .stranded b => some { s with sb := levelTypeStranded b s.sb }
  | .getInode x ino =>
    some
      { s with
        held := Function.update s.held x none
        lookup := if ino = 0 then none else some ⟨x, ino, table.height, table.root, ino / 4096⟩ }
  | .retrieve o junk =>
    match s.lookup with
    | some ⟨x, ino, h + 1, bp, blocknr⟩ =>
      match s.sb.wpmfsGetBlock bp with
      | none => none
      | some levelPtr =>
        (Fs.wpmfsRetrieveDatablk o junk s.sb levelPtr (blocknr / 512 ^ h)).map fun (bp, sb) =>
          { s with
            sb := sb
            lookup := if bp = 0 then none else some ⟨x, ino, h, bp, blocknr % 512 ^ h⟩ }
    | _ => none
  | .found =>
    match s.lookup with
    | some ⟨x, ino, 0, bp, _⟩ =>
      (s.sb.wpmfsGetBlock bp).map fun b =>
        { s with held := Function.update s.held x (some (b, ino % 4096 / 8)), lookup := none }
    | _ => none
  | .addLogentry x n => (s.held x).map fun p => { s with log := s.log ++ [record s.sb p n] }
  | .write x f v => (s.held x).map fun p => { s with sb := s.sb.setWord p.1 (p.2 + f) v }
  | .drop x => some { s with held := Function.update s.held x none }
  | .commit => some { s with log := [] }
  | .abort =>
    some
      { s with
        sb := { s.sb with words := fun b i => UndoLog.undo s.log (mem s.sb) (b, i) }
        log := [] }

/-- The word `f` of the inode is in the table. -/
structure InTable (table : PmfsInode) (ino f : ℕ) : Prop where
  slot : 128 ∣ ino
  block : ino / 4096 < 512 ^ table.height
  word : f < 16

/-- One operation at a time, with inode numbers of the table; only what is logged is written. -/
def Legal (table : PmfsInode) (s : Op) : OpCall → Prop
  | .stranded _ => True
  | .getInode _ ino => s.lookup = none ∧ InTable table ino 0
  | .retrieve _ _ => True
  | .found => True
  | .addLogentry _ n => s.lookup = none ∧ n ≤ 16
  | .write x f _ => s.lookup = none ∧ f < 16 ∧
      ∀ p, s.held x = some p → (p.1, p.2 + f) ∈ UndoLog.dom s.log
  | .drop _ => s.lookup = none
  | .commit => s.lookup = none
  | .abort => s.lookup = none

/-- No pointer and no log entry names a place in the block. -/
def Unnamed (s : Op) (b : ℕ) : Prop :=
  (∀ x p, s.held x = some p → p.1 ≠ b) ∧ ∀ i, (b, i) ∉ UndoLog.dom s.log

/-- A turn of a lookup that comes across a tired page gets a block for it, or `-ENOMEM`, and nothing
names a place in the page. -/
def Spares (s : Op) : OpCall → Prop
  | .retrieve o _ =>
    ∀ x ino h bp blocknr levelPtr b, s.lookup = some ⟨x, ino, h + 1, bp, blocknr⟩ →
      s.sb.wpmfsGetBlock bp = some levelPtr → s.sb.word levelPtr (blocknr / 512 ^ h) ≠ 0 →
      s.sb.wpmfsGetPfn (s.sb.word levelPtr (blocknr / 512 ^ h)) = some b →
      (s.sb.marks b).pageTired = true →
      s.Unnamed b ∧ (s.sb.newBlock o).1 ≠ .error .enospc
  | _ => True

end Op

/-- The words of the inodes, those from before the transaction, and the inodes that pointers are
for. -/
structure Inodes where
  inode : ℕ → ℕ → Option ℕ
  before : ℕ → ℕ → Option ℕ
  ofPtr : ℕ → ℕ

/-- What a step is to do. -/
def Inodes.step (a : Inodes) : OpCall → Inodes
  | .getInode x ino => { a with ofPtr := Function.update a.ofPtr x ino }
  | .write x f v =>
    { a with
      inode := Function.update a.inode (a.ofPtr x)
        (Function.update (a.inode (a.ofPtr x)) f (some v)) }
  | .commit => { a with before := a.inode }
  | .abort => { a with inode := a.before }
  | _ => a

namespace Op

/-- The word `f` of the inode, as a fresh lookup finds it. -/
def lookedUp (table : PmfsInode) (sb : Sb) (ino f : ℕ) : Option ℕ :=
  match Fs.pmfsFindDataBlock sb table.height table.root (ino / 4096) with
  | 0 => none
  | bp => (sb.wpmfsGetBlock bp).map fun b => sb.word b (ino % 4096 / 8 + f)

/-- Fresh lookups and all pointers lead to the words that the inodes are to have. -/
structure Sees (table : PmfsInode) (s : Op) (a : Inodes) : Prop where
  lookedUp : ∀ ino f, InTable table ino f → lookedUp table s.sb ino f = a.inode ino f
  held : ∀ x p f, s.held x = some p → f < 16 →
    some (s.sb.word p.1 (p.2 + f)) = a.inode (a.ofPtr x) f

inductive Step (table : PmfsInode) (ok : Op → OpCall → Prop) (t t' : Op × Inodes) : Prop
  | mk (c : OpCall) (hlegal : t.1.Legal table c) (hok : ok t.1 c)
      (hexec : t.1.exec table c = some t'.1) (hspec : t'.2 = t.2.step c)

abbrev Reaches (table : PmfsInode) (ok : Op → OpCall → Prop) : Op × Inodes → Op × Inodes → Prop :=
  Relation.ReflTransGen (Step table ok)

/-- Between two operations, with an inode table in the direct mapping of a device whose blocks are
numbered with 45 bits. -/
structure Fresh (lo hi root : ℕ) (table : PmfsInode) (s : Op) (a : Inodes) : Prop where
  lower : 0 < lo
  upper : hi ≤ 2 ^ 45
  alloc : s.sb.alloc.Inv lo hi
  rootOff : table.root = Sb.pmfsGetBlockOff root
  tree : Tree s.sb table.height root
  held : ∀ x, s.held x = none
  log : s.log = []
  lookup : s.lookup = none
  before : a.before = a.inode
  inode : ∀ ino f, InTable table ino f → Op.lookedUp table s.sb ino f = a.inode ino f

/-! ## The invariant -/

variable {lo hi root : ℕ} {table : PmfsInode} {s : Op} {a : Inodes} {sb' : Sb} {c : OpCall}

/-- The word `f` of the inode in the memory `m`. -/
def view (m : ℕ × ℕ → ℕ) (sb : Sb) (h root ino f : ℕ) : Option ℕ :=
  (Migrate.block sb h root (ino / 4096)).map fun b => m (b, ino % 4096 / 8 + f)

structure Sound (lo hi root : ℕ) (table : PmfsInode) (s : Op) (a : Inodes) : Prop where
  lower : 0 < lo
  upper : hi ≤ 2 ^ 45
  alloc : s.sb.alloc.Inv lo hi
  rootOff : table.root = Sb.pmfsGetBlockOff root
  tree : Tree s.sb table.height root
  inode : ∀ ino f, InTable table ino f →
    view (mem s.sb) s.sb table.height root ino f = a.inode ino f
  before : ∀ ino f, InTable table ino f →
    view (UndoLog.undo s.log (mem s.sb)) s.sb table.height root ino f = a.before ino f
  held : ∀ x p, s.held x = some p → InTable table (a.ofPtr x) 0 ∧
    block s.sb table.height root (a.ofPtr x / 4096) = some p.1 ∧ p.2 = a.ofPtr x % 4096 / 8
  logged : ∀ b i, (b, i) ∈ UndoLog.dom s.log →
    ∃ k < 512 ^ table.height, block s.sb table.height root k = some b

/-- The lookup is on its way to the block of its inode. -/
structure Cursor (root : ℕ) (table : PmfsInode) (s : Op) (a : Inodes) (l : Lookup) : Prop where
  height : l.height ≤ table.height
  ofPtr : a.ofPtr l.x = l.ino
  inTable : InTable table l.ino 0
  there : ∃ y, block s.sb (table.height - l.height) root (l.ino / 4096 / 512 ^ l.height) = some y ∧
    l.bp = Sb.pmfsGetBlockOff y
  blocknr : l.blocknr = l.ino / 4096 % 512 ^ l.height

/-- The allocator alone changes. -/
theorem Sound.setAlloc (h : Sound lo hi root table s a) {f : Factory} (hinv : f.Inv lo hi)
    (hinUse : ∀ y, s.sb.alloc.InUse y → f.InUse y) :
    Sound lo hi root table { s with sb := { s.sb with alloc := f } } a := by
  obtain ⟨htree, -⟩ := h.tree.same { s.sb with alloc := f } (fun _ _ => rfl) hinUse
  exact ⟨h.lower, h.upper, hinv, h.rootOff, htree, h.inode, h.before, h.held, h.logged⟩

theorem InTable.word_lt {ino f : ℕ} (h : InTable table ino f) : ino % 4096 / 8 + f < 512 := by
  obtain ⟨hslot, -, hf⟩ := h
  omega

/-- Two words of inodes that are in one place are the same. -/
theorem InTable.place {ino ino' f f' : ℕ} (h : InTable table ino f) (h' : InTable table ino' f')
    (hblock : ino' / 4096 = ino / 4096) (hplace : ino' % 4096 / 8 + f' = ino % 4096 / 8 + f) :
    ino' = ino ∧ f' = f := by
  obtain ⟨hslot, -, hf⟩ := h
  obtain ⟨hslot', -, hf'⟩ := h'
  omega

theorem InTable.of_zero {ino f : ℕ} (h : InTable table ino 0) (hf : f < 16) :
    InTable table ino f := ⟨h.slot, h.block, hf⟩

/-- The block of an inode is not one that holds pointers. -/
theorem Sound.not_inner (h : Sound lo hi root table s a) {k b : ℕ} (hk : k < 512 ^ table.height)
    (hb : block s.sb table.height root k = some b) :
    ¬Inner (child s.sb) 512 table.height root b := h.tree.apart.not_inner hk hb

/-- Memory changes below the last level. -/
theorem Sound.setWords (h : Sound lo hi root table s a) (sb' : Sb)
    (halloc : sb'.alloc = s.sb.alloc)
    (hw : ∀ y, Inner (child s.sb) 512 table.height root y → sb'.words y = s.sb.words y) :
    Tree sb' table.height root ∧ ∀ k < 512 ^ table.height,
      block sb' table.height root k = block s.sb table.height root k := by
  obtain ⟨htree, hmoved⟩ := h.tree.same sb' hw fun y hy => halloc ▸ hy
  exact ⟨htree, fun k hk => hmoved.find_id le_rfl hk⟩

theorem mem_setWord {sb : Sb} {b i v : ℕ} (hi : i < 512) :
    mem (sb.setWord b i v) = Function.update (mem sb) (b, i) v := by
  funext ⟨y, j⟩
  rw [mem, Sb.words_setWord hi]
  by_cases hy : y = b
  · subst hy
    by_cases hj : j = i
    · simp [hj]
    · simp [hj, mem]
  · simp [hy, mem]

/-! ## The steps -/

/-- A block that nothing names moves. -/
theorem Sound.moves (h : Sound lo hi root table s a) {x i b q : ℕ}
    (hx : Inner (child s.sb) 512 table.height root x) (hi' : i < 512)
    (hm : Moves s.sb sb' x i b q) (hunnamed : s.Unnamed b) (hfresh : ¬s.sb.alloc.InUse q)
    (hlower : lo ≤ q) (hupper : q < hi) (hinv : sb'.alloc.Inv lo hi) :
    Sound lo hi root table { s with sb := sb' } a ∧
      Moved (child s.sb) (child sb') 512 table.height root (swap b q) ∧ b ≠ root := by
  have hlo := h.lower
  have hhi := h.upper
  obtain ⟨htree, hmoved, hne⟩ := h.tree.moves hm hx hi' hfresh (by omega) (by omega)
  have hroot : swap b q root = root := swap_of_ne hne.symm
  have hblock : ∀ k < 512 ^ table.height, block sb' table.height root k =
      (block s.sb table.height root k).map (swap b q) := by
    intro k hk
    have hfind := hmoved.find le_rfl hk
    rwa [hroot] at hfind
  have hqMem : ¬Mem (child s.sb) 512 table.height root q := fun hmem => hfresh (h.tree.inUse q hmem)
  have hleaf : ∀ k < 512 ^ table.height, ∀ y, block s.sb table.height root k = some y →
      y ≠ q ∧ y ≠ x := by
    intro k hk y hy
    refine ⟨fun hyq => hqMem (hyq ▸ ⟨_, le_rfl, k, hk, hy⟩), fun hyx => ?_⟩
    exact h.not_inner hk hy (hyx ▸ hx)
  have hmem : ∀ k < 512 ^ table.height, ∀ y j, block s.sb table.height root k = some y →
      mem sb' (swap b q y, j) = mem s.sb (y, j) := by
    intro k hk y j hy
    obtain ⟨hyq, hyx⟩ := hleaf k hk y hy
    by_cases hyb : y = b
    · rw [hyb, swap_self, mem, mem, hm.words_new]
    · rw [swap_of_ne hyb, mem, mem, hm.words_of_ne hyq fun heq => absurd heq hyx]
  have hundo : ∀ k < 512 ^ table.height, ∀ y j, block s.sb table.height root k = some y →
      UndoLog.undo s.log (mem sb') (swap b q y, j) = UndoLog.undo s.log (mem s.sb) (y, j) := by
    intro k hk y j hy
    have hsame := hmem k hk y j hy
    by_cases hyb : y = b
    · -- neither the old place nor the new one is in the log
      have hnew : (q, j) ∉ UndoLog.dom s.log := fun hd => by
        obtain ⟨k', hk', hq⟩ := h.logged q j hd
        exact hqMem ⟨_, le_rfl, k', hk', hq⟩
      rw [hyb, swap_self] at hsame ⊢
      rw [UndoLog.undo_of_notMem hnew, UndoLog.undo_of_notMem (hunnamed.2 j), hsame]
    · rw [swap_of_ne hyb] at hsame ⊢
      exact UndoLog.undo_congr fun _ => hsame
  refine ⟨⟨hlo, hhi, hinv, h.rootOff, htree, fun ino f hf => ?_, fun ino f hf => ?_,
    fun y p hp => ?_, fun y j hd => ?_⟩, hmoved, hne⟩
  · rw [← h.inode ino f hf, view, view, hblock _ hf.block]
    cases hy : block s.sb table.height root (ino / 4096) with
    | none => rfl
    | some y => exact congrArg some (hmem _ hf.block y _ hy)
  · rw [← h.before ino f hf, view, view, hblock _ hf.block]
    cases hy : block s.sb table.height root (ino / 4096) with
    | none => rfl
    | some y => exact congrArg some (hundo _ hf.block y _ hy)
  · obtain ⟨hin, hy, hword⟩ := h.held y p hp
    refine ⟨hin, ?_, hword⟩
    rw [hblock _ hin.block, hy, Option.map_some, swap_of_ne (hunnamed.1 y p hp)]
  · obtain ⟨k, hk, hy⟩ := h.logged y j hd
    refine ⟨k, hk, ?_⟩
    rw [hblock k hk, hy, Option.map_some, swap_of_ne]
    rintro rfl
    exact hunnamed.2 j hd

variable {s' : Op} {x ino n f bp blocknr y k : ℕ} {o : Surroundings} {junk : ℕ} {l : Lookup}

theorem Sound.setLookup (h : Sound lo hi root table s a) :
    Sound lo hi root table { s with lookup := l' } a :=
  ⟨h.lower, h.upper, h.alloc, h.rootOff, h.tree, h.inode, h.before, h.held, h.logged⟩

/-- The lookup is at a page of pointers. -/
theorem Cursor.inner (hl : Cursor root table s a ⟨x, ino, n + 1, bp, blocknr⟩) :
    ∃ y, bp = Sb.pmfsGetBlockOff y ∧ Inner (child s.sb) 512 table.height root y ∧
      blocknr / 512 ^ n = ino / 4096 / 512 ^ n % 512 ∧
      blocknr % 512 ^ n = ino / 4096 % 512 ^ n ∧
      block s.sb (table.height - n) root (ino / 4096 / 512 ^ n) =
        child s.sb y (ino / 4096 / 512 ^ n % 512) := by
  obtain ⟨hheight, -, hin, ⟨y, hy, hbp⟩, hnr⟩ := hl
  dsimp only at hheight hin hy hbp hnr
  have hsum : table.height - (n + 1) + (n + 1) = table.height := Nat.sub_add_cancel hheight
  have hlt : ino / 4096 < 512 ^ (table.height - (n + 1) + (n + 1)) := hsum.symm ▸ hin.block
  have hlevel : table.height - n = table.height - (n + 1) + 1 := by omega
  refine ⟨y, hbp, ⟨_, by omega, _, div_pow_lt hlt, hy⟩, ?_, ?_, ?_⟩
  · rw [hnr, digit_first]
  · rw [hnr, digits_rest]
  · rw [hlevel]
    exact find_descend hlt hy

/-- A turn of a lookup goes on to the next level, in the block that was there or in a new one. -/
theorem Cursor.next (hl : Cursor root table s a ⟨x, ino, n + 1, bp, blocknr⟩)
    (hb : block sb' (table.height - n) root (ino / 4096 / 512 ^ n) = some y) :
    Cursor root table { s with
      sb := sb'
      lookup := some ⟨x, ino, n, Sb.pmfsGetBlockOff y, blocknr % 512 ^ n⟩ } a
      ⟨x, ino, n, Sb.pmfsGetBlockOff y, blocknr % 512 ^ n⟩ := by
  obtain ⟨-, -, -, -, hdigits, -⟩ := hl.inner
  have hheight := hl.height
  dsimp only at hheight
  exact ⟨by dsimp only; omega, hl.ofPtr, hl.inTable, ⟨y, hb, rfl⟩, hdigits⟩

theorem Sound.retrieve (h : Sound lo hi root table s a)
    (hlookup : s.lookup = some ⟨x, ino, n + 1, bp, blocknr⟩)
    (hl : Cursor root table s a ⟨x, ino, n + 1, bp, blocknr⟩)
    (hspares : s.Spares (.retrieve o junk)) (hexec : s.exec table (.retrieve o junk) = some s') :
    Sound lo hi root table s' a ∧ ∀ l, s'.lookup = some l → Cursor root table s' a l := by
  obtain ⟨y, hbp, hy, hindex, hrest, hnext⟩ := hl.inner
  have hdigit : ino / 4096 / 512 ^ n % 512 < 512 := Nat.mod_lt _ (by decide)
  have hybounds := h.tree.bounds y hy.mem
  have hpage : s.sb.wpmfsGetBlock bp = some y := hbp ▸ Sb.wpmfsGetBlock_direct hybounds.1 hybounds.2
  simp only [exec, hlookup, hpage] at hexec
  obtain ⟨⟨bp', t⟩, ht, rfl⟩ := Option.map_eq_some_iff.mp hexec
  rw [Fs.wpmfsRetrieveDatablk, hindex, Sb.word_of_lt hdigit] at ht
  dsimp only at ht ⊢
  cases hc : child s.sb y (ino / 4096 / 512 ^ n % 512) with
  | none =>
    rw [if_pos (child_eq_none.mp hc)] at ht
    cases ht
    exact ⟨h.setLookup, fun l hl => by simp at hl⟩
  | some c =>
    have hcbounds := h.tree.bounds c (hy.slot_mem hdigit hc)
    have hne := pmfsGetBlockOff_ne_zero hcbounds.1 hcbounds.2
    rw [h.tree.pointer hy hdigit hc, if_neg hne, wpmfsGetPfn_direct hcbounds.2] at ht
    dsimp only at ht
    split at ht
    swap
    · cases ht
      rw [if_neg hne]
      refine ⟨h.setLookup, fun l hl' => ?_⟩
      obtain rfl := Option.some.inj hl'
      exact hl.next (hnext.trans hc)
    · rename_i htired
      have hword : s.sb.word y (blocknr / 512 ^ n) = Sb.pmfsGetBlockOff c := by
        rw [hindex, Sb.word_of_lt hdigit, h.tree.pointer hy hdigit hc]
      obtain ⟨hunnamed, herror⟩ := hspares x ino n bp blocknr y c hlookup hpage
        (by rw [hword]; exact hne) (by rw [hword]; exact wpmfsGetPfn_direct hcbounds.2) htired
      rcases h.tree.wpmfsReplaceTiredPage h.alloc h.lower h.upper hy hdigit hc herror ht with
        ⟨rfl, u, rfl, hinv, hinUse⟩ | ⟨q, rfl, hm, hfresh, hlower, hupper, hinv⟩
      · exact ⟨(h.setAlloc hinv hinUse).setLookup, fun l hl => by simp at hl⟩
      · have hlo := h.lower
        have hhi := h.upper
        obtain ⟨hsound, hmoved, hroot⟩ := h.moves hy hdigit hm hunnamed hfresh hlower hupper hinv
        rw [if_neg (pmfsGetBlockOff_ne_zero (by omega) (by omega))]
        refine ⟨hsound.setLookup, fun l hl' => ?_⟩
        obtain rfl := Option.some.inj hl'
        refine hl.next ?_
        have hheight := hl.height
        have hlt := hl.inTable.block
        dsimp only at hheight hlt
        have hfind := hmoved.find (Nat.sub_le table.height n)
          (div_pow_lt (by rwa [Nat.sub_add_cancel (by omega)]))
        rw [swap_of_ne hroot.symm] at hfind
        rw [block, hfind]
        change Option.map _ (block s.sb _ root _) = _
        rw [hnext, hc, Option.map_some, swap_self]

theorem Sound.found (h : Sound lo hi root table s a) (hl : s.lookup = some l)
    (hcursor : Cursor root table s a l) (hexec : s.exec table .found = some s') :
    Sound lo hi root table s' a ∧ s'.lookup = none := by
  obtain ⟨x, ino, height, bp, blocknr⟩ := l
  cases height with
  | succ n => simp [exec, hl] at hexec
  | zero =>
    obtain ⟨hheight, hofPtr, hin, ⟨y, hy, hbp⟩, -⟩ := hcursor
    dsimp only at hofPtr hin hy hbp
    rw [Nat.sub_zero, pow_zero, Nat.div_one] at hy
    have hbounds := h.tree.bounds y ⟨_, le_rfl, _, hin.block, hy⟩
    simp only [exec, hl, hbp, Sb.wpmfsGetBlock_direct hbounds.1 hbounds.2, Option.map_some,
      Option.some.injEq] at hexec
    subst hexec
    refine ⟨⟨h.lower, h.upper, h.alloc, h.rootOff, h.tree, h.inode, h.before, fun z p hp => ?_,
      h.logged⟩, rfl⟩
    by_cases hz : z = x
    · subst hz
      simp only [Function.update_self, Option.some.injEq] at hp
      subst hp
      rw [hofPtr]
      exact ⟨hin, hy, rfl⟩
    · simp only [Function.update_of_ne hz] at hp
      exact h.held z p hp

theorem Sound.drop (h : Sound lo hi root table s a) (x : ℕ) (ofPtr : ℕ → ℕ)
    (hofPtr : ∀ y, y ≠ x → ofPtr y = a.ofPtr y) :
    Sound lo hi root table { s with held := Function.update s.held x none }
      { a with ofPtr := ofPtr } := by
  refine ⟨h.lower, h.upper, h.alloc, h.rootOff, h.tree, h.inode, h.before, fun y p hp => ?_,
    h.logged⟩
  by_cases hy : y = x
  · simp [hy] at hp
  · simp only [Function.update_of_ne hy] at hp
    dsimp only
    rw [hofPtr y hy]
    exact h.held y p hp

theorem Sound.getInode (h : Sound lo hi root table s a) (hin : InTable table ino 0)
    (hexec : s.exec table (.getInode x ino) = some s') :
    Sound lo hi root table s' (a.step (.getInode x ino)) ∧
      ∀ l, s'.lookup = some l → Cursor root table s' (a.step (.getInode x ino)) l := by
  obtain rfl := Option.some.inj hexec
  refine ⟨(h.drop x _ fun y hy => Function.update_of_ne hy ..).setLookup, fun l hl => ?_⟩
  by_cases hz : ino = 0
  · simp [hz] at hl
  · simp only [if_neg hz, Option.some.injEq] at hl
    subst hl
    refine ⟨le_rfl, Function.update_self .., hin, ⟨root, ?_, h.rootOff⟩, ?_⟩
    · dsimp only
      rw [Nat.sub_self]
      rfl
    · exact (Nat.mod_eq_of_lt hin.block).symm

/-- The log takes up what is there, at places of an inode. -/
theorem Sound.addLogentry (h : Sound lo hi root table s a)
    (hexec : s.exec table (.addLogentry x n) = some s') : Sound lo hi root table s' a := by
  obtain ⟨p, hp, rfl⟩ := Option.map_eq_some_iff.mp hexec
  obtain ⟨hin, hblock, -⟩ := h.held x p hp
  have hundo : UndoLog.undo (s.log ++ [record s.sb p n]) (mem s.sb) =
      UndoLog.undo s.log (mem s.sb) := by
    rw [UndoLog.undo_append]
    congr 1
    funext b
    simp only [UndoLog.undo_cons, UndoLog.undo_nil, UndoLog.Patch.restore, record]
    split <;> rfl
  refine ⟨h.lower, h.upper, h.alloc, h.rootOff, h.tree, h.inode, fun ino f hf => ?_, h.held,
    fun b i hd => ?_⟩
  · rw [← h.before ino f hf]
    dsimp only
    rw [hundo]
  · rcases UndoLog.mem_dom_append.mp hd with hd | hd
    · exact h.logged b i hd
    · rw [UndoLog.mem_dom_singleton, record] at hd
      split at hd
      · rename_i hplace
        exact ⟨_, hin.block, by rw [hblock, ← hplace.1]⟩
      · cases hd

/-- A store to a place that is logged. -/
theorem Sound.write {v : ℕ} (h : Sound lo hi root table s a)
    (hlegal : s.Legal table (.write x f v)) (hexec : s.exec table (.write x f v) = some s') :
    Sound lo hi root table s' (a.step (.write x f v)) := by
  obtain ⟨-, hf, hlogged⟩ := hlegal
  obtain ⟨⟨b, i⟩, hp, rfl⟩ := Option.map_eq_some_iff.mp hexec
  obtain ⟨hin, hblock, hplace⟩ := h.held x _ hp
  have hdom := hlogged _ hp
  have hinf := hin.of_zero hf
  have hword := hinf.word_lt
  dsimp only at hblock hplace hdom ⊢
  rw [← hplace] at hword
  have hinner := h.not_inner hin.block hblock
  obtain ⟨htree, hsame⟩ := h.setWords (s.sb.setWord b (i + f) v) rfl fun y hy => by
    have hyb : y ≠ b := fun heq => hinner (heq ▸ hy)
    rw [Sb.words_setWord hword, Function.update_of_ne hyb]
  have hmem := @mem_setWord s.sb b (i + f) v hword
  have hundo : ∀ y, UndoLog.undo s.log (mem (s.sb.setWord b (i + f) v)) y =
      UndoLog.undo s.log (mem s.sb) y := by
    refine fun y => UndoLog.undo_congr fun hd => ?_
    have hy : y ≠ (b, i + f) := fun heq => hd (heq.symm ▸ hdom)
    rw [hmem, Function.update_of_ne hy]
  refine ⟨h.lower, h.upper, h.alloc, h.rootOff, htree, fun ino g hg => ?_, fun ino g hg => ?_,
    fun y p hy => ?_, fun y j hd => ?_⟩
  · have hold := h.inode ino g hg
    rw [view] at hold ⊢
    rw [hsame _ hg.block]
    by_cases hthere : ino = a.ofPtr x ∧ g = f
    · obtain ⟨rfl, rfl⟩ := hthere
      rw [hblock, Option.map_some, hmem, hplace, Function.update_self]
      simp [Inodes.step]
    · have hspec : (a.step (.write x f v)).inode ino g = a.inode ino g := by
        by_cases hino : ino = a.ofPtr x
        · have hgf : g ≠ f := fun hgf => hthere ⟨hino, hgf⟩
          simp [Inodes.step, hino, hgf]
        · simp [Inodes.step, hino]
      rw [hspec, ← hold]
      cases hy : block s.sb table.height root (ino / 4096) with
      | none => rfl
      | some y =>
        have hne : (y, ino % 4096 / 8 + g) ≠ (b, i + f) := fun heq => by
          obtain ⟨rfl, hj⟩ := Prod.mk.inj heq
          have hposition := (h.tree.apart _ _ _ _ _ le_rfl le_rfl hg.block hin.block hy hblock).2
          exact hthere (hinf.place hg hposition (by rw [hj, hplace]))
        rw [Option.map_some, Option.map_some, hmem, Function.update_of_ne hne]
  · have hold := h.before ino g hg
    rw [view] at hold ⊢
    rw [hsame _ hg.block]
    simp only [hundo]
    exact hold
  · obtain ⟨hin', hblock', hplace'⟩ := h.held y p hy
    exact ⟨hin', (hsame _ hin'.block).trans hblock', hplace'⟩
  · obtain ⟨k, hk, hblock'⟩ := h.logged y j hd
    exact ⟨k, hk, (hsame k hk).trans hblock'⟩

theorem Sound.abort (h : Sound lo hi root table s a) (hexec : s.exec table .abort = some s') :
    Sound lo hi root table s' (a.step .abort) := by
  obtain rfl := Option.some.inj hexec
  have hinner : ∀ y, Inner (child s.sb) 512 table.height root y →
      (fun i => UndoLog.undo s.log (mem s.sb) (y, i)) = s.sb.words y := by
    refine fun y hy => funext fun i => UndoLog.undo_of_notMem fun hd => ?_
    obtain ⟨k, hk, hblock⟩ := h.logged y i hd
    exact h.not_inner hk hblock hy
  obtain ⟨htree, hsame⟩ := h.setWords
    { s.sb with words := fun b i => UndoLog.undo s.log (mem s.sb) (b, i) } rfl hinner
  have hview : ∀ ino f, InTable table ino f → view (UndoLog.undo s.log (mem s.sb))
      { s.sb with words := fun b i => UndoLog.undo s.log (mem s.sb) (b, i) } table.height root
      ino f = a.before ino f := by
    intro ino f hf
    rw [view, hsame _ hf.block]
    exact h.before ino f hf
  refine ⟨h.lower, h.upper, h.alloc, h.rootOff, htree, hview, hview, fun y p hy => ?_,
    fun b i hd => by simp at hd⟩
  obtain ⟨hin, hblock, hplace⟩ := h.held y p hy
  exact ⟨hin, (hsame _ hin.block).trans hblock, hplace⟩

theorem Sound.commit (h : Sound lo hi root table s a) (hexec : s.exec table .commit = some s') :
    Sound lo hi root table s' (a.step .commit) := by
  obtain rfl := Option.some.inj hexec
  exact ⟨h.lower, h.upper, h.alloc, h.rootOff, h.tree, h.inode, h.inode, h.held,
    fun b i hd => by simp at hd⟩

theorem Sound.stranded (h : Sound lo hi root table s a) {b : ℕ} :
    ∃ f : Factory, levelTypeStranded b s.sb = { s.sb with alloc := f } ∧ f.Inv lo hi ∧
      ∀ y, s.sb.alloc.InUse y → f.InUse y := by
  unfold levelTypeStranded
  split
  · exact ⟨_, rfl, h.alloc.markPage, fun y => Factory.markPage_inUse.mpr⟩
  · exact ⟨s.sb.alloc, rfl, h.alloc, fun _ => id⟩

/-! ## Runs -/

/-- The invariant, between the turns of a lookup as well. -/
structure Inv (lo hi root : ℕ) (table : PmfsInode) (s : Op) (a : Inodes) : Prop where
  sound : Sound lo hi root table s a
  cursor : ∀ l, s.lookup = some l → Cursor root table s a l

theorem Sound.inv (h : Sound lo hi root table s a) (hlookup : s.lookup = none) :
    Inv lo hi root table s a := ⟨h, fun l hl => by simp [hlookup] at hl⟩

theorem Inv.step (h : Inv lo hi root table s a) (hlegal : s.Legal table c) (hok : s.Spares c)
    (hexec : s.exec table c = some s') : Inv lo hi root table s' (a.step c) := by
  obtain ⟨hsound, hcursor⟩ := h
  cases c with
  | stranded b =>
    obtain ⟨f, hf, hinv, hinUse⟩ := hsound.stranded (b := b)
    obtain rfl := Option.some.inj hexec
    rw [hf]
    refine ⟨hsound.setAlloc hinv hinUse, fun l hl => ?_⟩
    obtain ⟨hheight, hofPtr, hin, hthere, hnr⟩ := hcursor l hl
    exact ⟨hheight, hofPtr, hin, hthere, hnr⟩
  | getInode x ino =>
    obtain ⟨hsound', hcursor'⟩ := hsound.getInode hlegal.2 hexec
    exact ⟨hsound', hcursor'⟩
  | retrieve o junk =>
    cases hl : s.lookup with
    | none => simp [exec, hl] at hexec
    | some l =>
      obtain ⟨x, ino, height, bp, blocknr⟩ := l
      cases height with
      | zero => simp [exec, hl] at hexec
      | succ n =>
        obtain ⟨hsound', hcursor'⟩ := hsound.retrieve hl (hcursor _ hl) hok hexec
        exact ⟨hsound', hcursor'⟩
  | found =>
    cases hl : s.lookup with
    | none => simp [exec, hl] at hexec
    | some l =>
      obtain ⟨hsound', hnone⟩ := hsound.found hl (hcursor l hl) hexec
      exact hsound'.inv hnone
  | addLogentry x n =>
    have hsound' := hsound.addLogentry hexec
    obtain ⟨p, -, rfl⟩ := Option.map_eq_some_iff.mp hexec
    exact hsound'.inv hlegal.1
  | write x f v =>
    have hsound' := hsound.write hlegal hexec
    obtain ⟨p, -, rfl⟩ := Option.map_eq_some_iff.mp hexec
    exact hsound'.inv hlegal.1
  | drop x =>
    obtain rfl := Option.some.inj hexec
    have hdrop := hsound.drop x a.ofPtr fun _ _ => rfl
    exact hdrop.inv hlegal
  | commit =>
    have hsound' := hsound.commit hexec
    obtain rfl := Option.some.inj hexec
    exact hsound'.inv hlegal
  | abort =>
    have hsound' := hsound.abort hexec
    obtain rfl := Option.some.inj hexec
    exact hsound'.inv hlegal

theorem Inv.reaches {t t' : Op × Inodes} (h : Inv lo hi root table t.1 t.2)
    (hrun : Reaches table Spares t t') : Inv lo hi root table t'.1 t'.2 := by
  induction hrun with
  | refl => exact h
  | tail _ hstep ih =>
    obtain ⟨c, hlegal, hok, hexec, hspec⟩ := hstep
    rw [hspec]
    exact ih.step hlegal hok hexec

/-- A fresh lookup finds the block of the inode. -/
theorem lookedUp_eq {sb : Sb} {f ino : ℕ} (ht : Tree sb table.height root)
    (hroot : table.root = Sb.pmfsGetBlockOff root) (hin : InTable table ino f) :
    lookedUp table sb ino f = view (mem sb) sb table.height root ino f := by
  rw [lookedUp, hroot, ht.pmfsFindDataBlock hin.block, view]
  cases hy : block sb table.height root (ino / 4096) with
  | none => rfl
  | some y =>
    have hbounds := ht.bounds y ⟨_, le_rfl, _, hin.block, hy⟩
    have hne := pmfsGetBlockOff_ne_zero hbounds.1 hbounds.2
    simp only [Option.elim_some, Sb.wpmfsGetBlock_direct hbounds.1 hbounds.2, Option.map_some,
      Sb.word_of_lt hin.word_lt, mem]

theorem Sound.toSees (h : Sound lo hi root table s a) : Sees table s a := by
  refine ⟨fun ino f hf => ?_, fun x p f hp hf => ?_⟩
  · rw [lookedUp_eq h.tree h.rootOff hf]
    exact h.inode ino f hf
  · obtain ⟨hin, hblock, hplace⟩ := h.held x p hp
    have hinf := hin.of_zero hf
    have hword := hinf.word_lt
    rw [← h.inode _ f hinf, view, hblock, Option.map_some, hplace, Sb.word_of_lt hword]
    rfl

theorem Fresh.inv (h : Fresh lo hi root table s a) : Inv lo hi root table s a := by
  have hview : ∀ ino f, InTable table ino f →
      view (mem s.sb) s.sb table.height root ino f = a.inode ino f := fun ino f hf => by
    rw [← lookedUp_eq h.tree h.rootOff hf]
    exact h.inode ino f hf
  refine Sound.inv ⟨h.lower, h.upper, h.alloc, h.rootOff, h.tree, hview, fun ino f hf => ?_,
    fun x p hp => ?_, fun b i hd => ?_⟩ h.lookup
  · rw [h.log, h.before]
    exact hview ino f hf
  · simp [h.held x] at hp
  · simp [h.log] at hd

/-- An inode table of one page, the block 2, below the block 1. -/
def smallTable : PmfsInode := ⟨4096, 1⟩

def small : Op where
  sb := smallSb
  held _ := none
  log := []
  lookup := none

def smallInodes : Inodes where
  inode := lookedUp smallTable small.sb
  before := lookedUp smallTable small.sb
  ofPtr _ := 0

theorem fresh_small : Fresh 1 8 1 smallTable small smallInodes where
  lower := by decide
  upper := by decide
  alloc := inv_smallSb
  rootOff := by decide
  tree := tree_smallSb
  held _ := rfl
  log := rfl
  lookup := rfl
  before := rfl
  inode _ _ _ := rfl

theorem unnamed_of_new (hheld : ∀ x, s.held x = none) (hlog : s.log = []) {b : ℕ} :
    s.Unnamed b :=
  ⟨fun x p hp => by simp [hheld x] at hp, fun i hd => by simp [hlog] at hd⟩

/-- The next state, if there is one. -/
def after (c : OpCall) (t : Op × Inodes) : Op × Inodes :=
  ((t.1.exec smallTable c).getD t.1, t.2.step c)

theorem Reaches.after {ok : Op → OpCall → Prop} {t u : Op × Inodes}
    (hrun : Reaches smallTable ok t u) (c : OpCall) (hlegal : u.1.Legal smallTable c)
    (hok : ok u.1 c) (hsome : (u.1.exec smallTable c).isSome) :
    Reaches smallTable ok t (Op.after c u) := by
  refine hrun.tail ⟨c, hlegal, hok, ?_, rfl⟩
  obtain ⟨s', hs'⟩ := Option.isSome_iff_exists.mp hsome
  rw [Op.after, hs']
  rfl

/-- The pointer `x` to the inode `ino`. -/
def got (x ino : ℕ) (t : Op × Inodes) : Op × Inodes :=
  after .found (after (.retrieve idle 0) (after (.getInode x ino) t))

/-- The page is tired before the first pointer is got. -/
def spared : Op × Inodes :=
  after .commit (after (.write 0 3 7) (after (.addLogentry 0 6) (got 0 128
    (after (.stranded 2) (small, smallInodes)))))

theorem inTable_small {ino : ℕ} (hslot : 128 ∣ ino) (hlt : ino < 4096) :
    InTable smallTable ino 0 :=
  ⟨hslot, by rw [Nat.div_eq_of_lt hlt]; decide, by decide⟩

/-- What has been logged may be written. -/
theorem legal_write {p : ℕ × ℕ} {sb : Sb} {v : ℕ} (hp : s.held x = some p)
    (hlookup : s.lookup = none) (hlog : s.log = [record sb p n]) (hf : f < n) (hn : n ≤ 16) :
    s.Legal table (.write x f v) := by
  refine ⟨hlookup, by omega, fun q hq => ?_⟩
  obtain rfl := Option.some.inj (hp.symm.trans hq)
  rw [hlog]
  refine UndoLog.mem_dom_singleton.mpr ?_
  rw [record, if_pos ⟨rfl, Nat.le_add_right .., Nat.add_lt_add_left hf _⟩]
  rfl

theorem reaches_spared : Reaches smallTable Spares (small, smallInodes) spared := by
  have h := Relation.ReflTransGen.refl (r := Step smallTable Spares) (a := (small, smallInodes))
  have h := Reaches.after h (.stranded 2) trivial trivial rfl
  have h := Reaches.after h (.getInode 0 128) ⟨rfl, inTable_small (by decide) (by decide)⟩ trivial
    rfl
  have h := Reaches.after h (.retrieve idle 0) trivial (fun _ _ _ _ _ _ b _ _ _ _ _ =>
    ⟨unnamed_of_new (fun y => by cases y <;> rfl) rfl, nofun⟩) rfl
  have h := Reaches.after h .found trivial trivial rfl
  have h := Reaches.after h (.addLogentry 0 6) ⟨rfl, by decide⟩ trivial rfl
  have h := Reaches.after h (.write 0 3 7) (legal_write rfl rfl rfl (by decide) (by decide))
    trivial rfl
  exact Reaches.after h .commit rfl trivial rfl

/-- The page is tired when the second pointer is got, and the store through the first one does not
get to the new page. -/
def lost : Op × Inodes :=
  after .commit (after (.write 0 3 7) (got 1 256 (after (.stranded 2) (after (.addLogentry 0 6)
    (got 0 128 (small, smallInodes))))))

/-- The new page has a copy of what was stored, and the old values go to the old page. -/
def kept : Op × Inodes :=
  after .abort (got 1 256 (after (.stranded 2) (after (.write 0 3 7) (after (.addLogentry 0 6)
    (got 0 128 (small, smallInodes))))))

theorem reaches_lost : Reaches smallTable (fun _ _ => True) (small, smallInodes) lost := by
  have hin : InTable smallTable 128 0 := inTable_small (by decide) (by decide)
  have hin' : InTable smallTable 256 0 := inTable_small (by decide) (by decide)
  have h := Relation.ReflTransGen.refl (r := Step smallTable fun _ _ => True)
    (a := (small, smallInodes))
  have h := Reaches.after h (.getInode 0 128) ⟨rfl, hin⟩ trivial rfl
  have h := Reaches.after h (.retrieve idle 0) trivial trivial rfl
  have h := Reaches.after h .found trivial trivial rfl
  have h := Reaches.after h (.addLogentry 0 6) ⟨rfl, by decide⟩ trivial rfl
  have h := Reaches.after h (.stranded 2) trivial trivial rfl
  have h := Reaches.after h (.getInode 1 256) ⟨rfl, hin'⟩ trivial rfl
  have h := Reaches.after h (.retrieve idle 0) trivial trivial rfl
  have h := Reaches.after h .found trivial trivial rfl
  have h := Reaches.after h (.write 0 3 7) (legal_write rfl rfl rfl (by decide) (by decide))
    trivial rfl
  exact Reaches.after h .commit rfl trivial rfl

theorem reaches_kept : Reaches smallTable (fun _ _ => True) (small, smallInodes) kept := by
  have hin : InTable smallTable 128 0 := inTable_small (by decide) (by decide)
  have hin' : InTable smallTable 256 0 := inTable_small (by decide) (by decide)
  have h := Relation.ReflTransGen.refl (r := Step smallTable fun _ _ => True)
    (a := (small, smallInodes))
  have h := Reaches.after h (.getInode 0 128) ⟨rfl, hin⟩ trivial rfl
  have h := Reaches.after h (.retrieve idle 0) trivial trivial rfl
  have h := Reaches.after h .found trivial trivial rfl
  have h := Reaches.after h (.addLogentry 0 6) ⟨rfl, by decide⟩ trivial rfl
  have h := Reaches.after h (.write 0 3 7) (legal_write rfl rfl rfl (by decide) (by decide))
    trivial rfl
  have h := Reaches.after h (.stranded 2) trivial trivial rfl
  have h := Reaches.after h (.getInode 1 256) ⟨rfl, hin'⟩ trivial rfl
  have h := Reaches.after h (.retrieve idle 0) trivial trivial rfl
  have h := Reaches.after h .found trivial trivial rfl
  exact Reaches.after h .abort rfl trivial rfl

end Op

end Wpmfs.Migrate
