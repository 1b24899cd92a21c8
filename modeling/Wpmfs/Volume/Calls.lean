import Wpmfs.Volume.Entries

/-!
# Calls on the volume

What the callers of the operations make sure of, and the invariant that every call keeps: the volume
holds a tree of names with its counts, the inodes in memory agree with their slots, and the
truncate list is the list in memory.
-/

namespace Wpmfs.Volume

open Bytes Dir Namei
open Wpmfs.Inode (PmfsInode Truncates)

inductive Call where
  | create (p : Place) (mode : ℕ)
  | mknod (p : Place) (mode : ℕ)
  | symlink (p : Place) (len : ℕ)
  | link (inode : ℕ) (p : Place)
  | unlink (p : Place) (inode : ℕ)
  | mkdir (p : Place) (mode : ℕ)
  | rmdir (p : Place) (inode : ℕ)
  | rename (p : Place) (inode : ℕ) (q : Place) (replaced : Option ℕ)
  | evict (ino : ℕ)
  | iget (ino : ℕ)
  | setFlags (ino : ℕ) (append immutable : Bool)

namespace Call

def exec (v : Volume) (env : Env) : Call → Result
  | create p mode => v.pmfsCreate p mode env
  | mknod p mode => v.pmfsMknod p mode env
  | symlink p len => v.pmfsSymlink p len env
  | link inode p => v.pmfsLink inode p env
  | unlink p inode => v.pmfsUnlink p inode env
  | mkdir p mode => v.pmfsMkdir p mode env
  | rmdir p inode => v.pmfsRmdir p inode env
  | rename p inode q replaced => v.pmfsRename p inode q replaced env
  | evict ino => some (.ok (), v.pmfsEvictInode ino env)
  | iget ino => some (.ok (), v.pmfsIget ino)
  | setFlags ino append immutable => v.setFlags ino append immutable env

end Call

/-- A slot that the search of `pmfs_new_inode` may end at. -/
structure Found (v : Volume) (ino : ℕ) (grown : Bool) : Prop where
  inTable : (grow v.start grown).vol.InTable ino
  free : ((grow v.start grown).vol.pi ino).IsFree
  pos : ino ≠ 0
  lt : ino < 2 ^ 64

def NewInode.Promised (v : Volume) : NewInode → Prop
  | .none _ => True
  | .clash ino grown => v.Found ino grown
  | .found ino grown => v.Found ino grown ∧ v.inode ino = .none

/-- A name may be put there, and the directory is in memory. -/
def MayName (v : Volume) (p : Place) : Prop := Op.MayName v.toFs.tree p ∧ v.inode p.1 ≠ none

/-- The place names the inode, and both inodes are in memory. -/
structure NamedBy (v : Volume) (p : Place) (ino : ℕ) : Prop where
  entry : v.toFs.entry p = some ino
  dir : v.inode p.1 ≠ none
  inode : v.inode ino ≠ none

/-- What the callers make sure of. The clock does not show the time 0. -/
def Call.Promised (v : Volume) (env : Env) : Call → Prop
  | create p mode => v.MayName p ∧ kindOf mode = .reg ∧ env.newInode.Promised v
  | mknod p mode => v.MayName p ∧ kindOf mode ≠ .dir ∧ mode ≠ 0 ∧ env.newInode.Promised v
  | symlink p _ => v.MayName p ∧ env.newInode.Promised v
  | link inode p => v.MayName p ∧ v.inode inode ≠ none ∧ v.toFs.kind inode ≠ some .dir
  | unlink p inode => v.NamedBy p inode ∧ v.toFs.kind inode ≠ some .dir
  | mkdir p mode => v.MayName p ∧ mode &&& sIfmt = 0 ∧ env.newInode.Promised v
  | rmdir p inode => v.NamedBy p inode ∧ v.toFs.kind inode = some .dir
  | rename p inode q replaced =>
    v.NamedBy p inode ∧ v.toFs.tree.Live q.1 ∧ v.inode q.1 ≠ none ∧ Fs.NormName q.2 ∧
      replaced = v.toFs.entry q ∧ replaced ≠ some inode ∧
      ∀ n, replaced = some n → v.inode n ≠ none ∧
        (v.toFs.kind n = some .dir ↔ v.toFs.kind inode = some .dir)
  | evict ino => v.inode ino ≠ none ∧ env.seconds ≠ 0
  | iget _ => True
  | setFlags ino _ _ => v.inode ino ≠ none

/-! ## The invariant -/

variable {v v' : Volume} {a : Tree} {t : Trans} {x y : ℕ} {env : Env}

/-- The inodes in memory agree with their slots, and the truncate list with the list in memory. -/
structure Sane (v : Volume) : Prop where
  ok : ∀ x, (v.cells x).Ok
  pos : ∀ x, ¬(v.pi x).IsFree → x ≠ 0
  outside : ∀ x, ¬v.InTable x → v.pi x = zeroSlot
  chain : Linked v.iNextTruncate 0 v.head v.sTruncate
  onList : ∀ x ∈ v.sTruncate, v.inode x ≠ none

structure Inv (v : Volume) (a : Tree) : Prop where
  models : v.toFs.Models a
  names : a.Names
  counts : ∃ slack, a.Counts slack
  sane : v.Sane

theorem isFree_zeroSlot : zeroSlot.IsFree := by decide

theorem Sane.inTable (h : v.Sane) (hx : ¬(v.pi x).IsFree) : v.InTable x := by
  by_contra hout
  rw [h.outside x hout] at hx
  exact hx isFree_zeroSlot

theorem Sane.sound (h : v.Sane) : v.truncates.Sound := by
  have hlive : ∀ {x}, v.truncates.phase x ≠ .absent → v.inode x ≠ none := by
    intro x hx hnone
    simp [truncates, hnone] at hx
  refine ⟨?_, fun x hx => ?_, fun x hx => ?_, fun x hx => ?_, fun x y _ _ hxy => hxy⟩
  · rw [Truncates.numbers]
    change Linked v.iNextTruncate 0 v.head (v.sTruncate.map id)
    rw [List.map_id]
    exact h.chain
  · obtain ⟨m, hm⟩ := Option.ne_none_iff_exists'.mp (h.onList x hx)
    simp [truncates, hm]
  · exact h.pos x ((h.ok x).inUse (hlive hx))
  · have hused : ¬(v.pi x).IsFree := (h.ok x).inUse (hlive (x := x) (by simp [hx]))
    simpa [truncates] using hused

/-- One cell changes. -/
theorem Sane.set (h : v.Sane) (hother : ∀ y, y ≠ x → v'.cells y = v.cells y)
    (hok : (v'.cells x).Ok) (hpos : x ≠ 0) (hin : v'.InTable x)
    (hgrown : v.sInodesCount ≤ v'.sInodesCount)
    (hchain : Linked v'.iNextTruncate 0 v'.head v'.sTruncate)
    (hlist : ∀ y ∈ v'.sTruncate, if y = x then v'.inode x ≠ none else y ∈ v.sTruncate) :
    v'.Sane := by
  have hpi : ∀ {y}, y ≠ x → v'.pi y = v.pi y := fun hy => congrArg Cell.pi (hother _ hy)
  refine ⟨fun y => ?_, fun y hy => ?_, fun y hy => ?_, hchain, fun y hy => ?_⟩
  · by_cases hyx : y = x
    · rwa [hyx]
    · rw [hother y hyx]
      exact h.ok y
  · by_cases hyx : y = x
    · rwa [hyx]
    · rw [hpi hyx] at hy
      exact h.pos y hy
  · have hyx : y ≠ x := fun hyx => hy (hyx ▸ hin)
    rw [hpi hyx]
    refine h.outside y fun hold => hy ?_
    exact hold.trans_le (Nat.mul_le_mul_right _ hgrown)
  · have hlist := hlist y hy
    split at hlist
    · rename_i hyx
      rwa [hyx]
    · rename_i hyx
      rw [Volume.inode, hother y hyx]
      exact h.onList y hlist

theorem Sane.modify {g : Cell → Cell} (h : v.Sane) (hx : v.inode x ≠ none)
    (hok : (g (v.cells x)).Ok) (hin : (g (v.cells x)).inode ≠ none) : (v.modify x g).Sane := by
  have hused := (h.ok x).inUse hx
  have hcell : (v.modify x g).cells x = g (v.cells x) := modify_self
  refine h.set (fun y hy => modify_of_ne hy) (hcell ▸ hok) (h.pos x hused) (h.inTable hused) le_rfl
    h.chain fun y hy => ?_
  split
  · rwa [Volume.inode, hcell]
  · exact hy

theorem Sane.kept (h : v.Sane) (hv : v.Kept v') : v'.Sane := by
  have hpi : ∀ x, (v'.cells x).pi = (v.cells x).pi := hv.pi
  refine ⟨fun x => ⟨?_, fun m hm => ?_⟩, fun x => ?_, fun x hx => ?_, ?_, fun x hx => ?_⟩
  · rw [hpi]
    exact (h.ok x).used
  · rw [hpi]
    rcases hv.inode x with heq | ⟨n, k, hn, hk⟩
    · exact (h.ok x).cached m (heq.symm.trans hm)
    · obtain ⟨hused, hsync⟩ := (h.ok x).cached n hn
      obtain rfl := Option.some.inj (hk.symm.trans hm)
      refine ⟨hused, ?_⟩
      rw [hsync]
  · rw [hv.pi]
    exact h.pos x
  · rw [hv.pi]
    refine h.outside x fun hin => hx ?_
    exact hin.trans_le (Nat.mul_le_mul_right _ hv.grown)
  · rw [hv.iNextTruncate, hv.head, hv.sTruncate]
    exact h.chain
  · rw [hv.sTruncate] at hx
    exact hv.inode_ne_none.mpr (h.onList x hx)

theorem Inv.kept (h : v.Inv a) (hv : v.Kept v') : v'.Inv a :=
  ⟨hv.models h.models, h.names, h.counts, h.sane.kept hv⟩

/-- What a call does to the tree keeps the invariant. -/
theorem Inv.apply (h : v.Inv a) (op : Op) (hop : op.Promised a) (hguard : op.Guarded a)
    (hmodels : v'.toFs.Models (op.apply a)) (hsane : v'.Sane) : v'.Inv (op.apply a) := by
  obtain ⟨slack, hcounts⟩ := h.counts
  obtain ⟨slack', hcounts', -⟩ := hcounts.apply h.names hop hguard
  exact ⟨hmodels, h.names.apply hcounts hop hguard, ⟨slack', hcounts'⟩, hsane⟩

/-! ## The truncate list -/

theorem sTruncate_add {s : Truncates} {size : ℕ} :
    ((Truncates.pmfsTruncateAdd x size).exec s).1.sTruncate =
      if x ∈ s.sTruncate then s.sTruncate else x :: s.sTruncate := by
  simp only [Truncates.pmfsTruncateAdd, Persist.Prog.exec]
  split <;> rfl

theorem Sane.pmfsTruncateAdd (h : v.Sane) (size : ℕ) (hx : v.inode x ≠ none) :
    (v.pmfsTruncateAdd x size).Sane ∧ x ∈ (v.pmfsTruncateAdd x size).sTruncate ∧
      ∀ y ∈ v.sTruncate, y ∈ (v.pmfsTruncateAdd x size).sTruncate := by
  have hlist : (v.pmfsTruncateAdd x size).sTruncate =
      if x ∈ v.sTruncate then v.sTruncate else x :: v.sTruncate := sTruncate_add
  have hlive : v.truncates.phase x = .live := by
    obtain ⟨m, hm⟩ := Option.ne_none_iff_exists'.mp hx
    simp [truncates, hm]
  obtain ⟨l, hrelists, -⟩ := h.sound.relists_add size hlive fun y _ hy => by
    simp only [truncates] at hy
    split at hy <;> cases hy
  obtain ⟨-, -, -, hl, hvisits⟩ := hrelists.exec
  rw [← hl] at hvisits
  change Linked _ 0 _ (List.map id _) at hvisits
  rw [List.map_id] at hvisits
  refine ⟨⟨h.ok, h.pos, h.outside, hvisits, fun y hy => ?_⟩, ?_, fun y hy => ?_⟩
  · rw [hlist] at hy
    split at hy
    · exact h.onList y hy
    · rcases List.mem_cons.mp hy with rfl | hy
      · exact hx
      · exact h.onList y hy
  · rw [hlist]
    split
    · assumption
    · exact List.mem_cons_self ..
  · rw [hlist]
    split
    · exact hy
    · exact List.mem_cons_of_mem _ hy

theorem sTruncate_del {s : Truncates} :
    ((Truncates.pmfsTruncateDel x).exec s).1.sTruncate = s.sTruncate.erase x := by
  simp only [Truncates.pmfsTruncateDel, Persist.Prog.exec]
  split
  · cases Truncates.prev s.sTruncate x <;> rfl
  · rw [List.erase_of_not_mem ‹_›]
    rfl

theorem Sane.pmfsTruncateDel (h : v.Sane) : Linked (v.pmfsTruncateDel x).iNextTruncate 0
      (v.pmfsTruncateDel x).head (v.pmfsTruncateDel x).sTruncate ∧
    (v.pmfsTruncateDel x).sTruncate = v.sTruncate.erase x := by
  obtain ⟨l, hrelists, -, -⟩ := h.sound.relists_del (x := x)
  obtain ⟨-, -, -, hl, hvisits⟩ := hrelists.exec
  rw [← hl] at hvisits
  change Linked _ 0 _ (List.map id _) at hvisits
  rw [List.map_id] at hvisits
  exact ⟨hvisits, sTruncate_del⟩

/-- Taking an inode off the list that is not on it does nothing. -/
theorem pmfsTruncateDel_of_notMem (hx : x ∉ v.sTruncate) : v.pmfsTruncateDel x = v := by
  have hexec : ((Truncates.pmfsTruncateDel x).exec v.truncates).1 = v.truncates := by
    simp only [Truncates.pmfsTruncateDel, Persist.Prog.exec]
    rw [if_neg (show x ∉ v.truncates.sTruncate from hx)]
    rfl
  rw [Volume.pmfsTruncateDel, hexec]
  rfl

/-! ## Aborted transactions -/

/-- What the transaction changed is in its log, as it was. -/
structure Undoable (v : Volume) (t : Trans) : Prop where
  log : ∀ e ∈ t.log, ∃ x, e = .slot x (v.pi x)
  pi : ∀ x, t.vol.pi x = v.pi x ∨ LogEntry.slot x (v.pi x) ∈ t.log
  data : ∀ x, ¬(v.pi x).IsFree → (t.vol.cells x).data = (v.cells x).data
  inode : ∀ x, t.vol.inode x = v.inode x
  sTruncate : t.vol.sTruncate = v.sTruncate
  iNextTruncate : t.vol.iNextTruncate = v.iNextTruncate
  head : t.vol.head = v.head
  grown : v.sInodesCount ≤ t.vol.sInodesCount

/-- Undoing an inode changes its slot alone. -/
theorem undo_slot (w : Volume) (old : Slot) (y : ℕ) :
    (pmfsUndoLogentry w (.slot x old)).pi y = Function.update w.pi x old y ∧
      (pmfsUndoLogentry w (.slot x old)).inode y = w.inode y ∧
      ((pmfsUndoLogentry w (.slot x old)).cells y).data = (w.cells y).data := by
  rw [Volume.pi, Volume.inode, pmfsUndoLogentry]
  by_cases hyx : y = x
  · subst hyx
    rw [modify_self, Function.update_self]
    exact ⟨rfl, rfl, rfl⟩
  · rw [modify_of_ne hyx, Function.update_of_ne hyx]
    exact ⟨rfl, rfl, rfl⟩

theorem Undoable.abort (h : v.Undoable t) : v.Kept (abort t) := by
  obtain ⟨w, log⟩ := t
  rw [Volume.abort]
  induction log generalizing w with
  | nil =>
    exact ⟨fun x => (h.pi x).resolve_right List.not_mem_nil, h.data, fun x => .inl (h.inode x),
      h.sTruncate, h.iNextTruncate, h.head, h.grown⟩
  | cons e log ih =>
    obtain ⟨x, rfl⟩ := h.log e (List.mem_cons_self ..)
    have hw := undo_slot (x := x) w (v.pi x)
    refine ih (pmfsUndoLogentry w (.slot x (v.pi x))) ⟨fun e he => h.log e ?_, fun y => ?_,
      fun y hy => (hw y).2.2.trans (h.data y hy), fun y => (hw y).2.1.trans (h.inode y),
      h.sTruncate, h.iNextTruncate, h.head, h.grown⟩
    · exact List.mem_cons_of_mem _ he
    · by_cases hyx : y = x
      · refine .inl ((hw y).1.trans ?_)
        rw [hyx, Function.update_self]
      · rcases h.pi y with hsame | hmem
        · exact .inl ((hw y).1.trans ((Function.update_of_ne hyx ..).trans hsame))
        · exact .inr (List.mem_of_ne_of_mem (by simp [hyx]) hmem)

end Wpmfs.Volume
