import Wpmfs.Volume.Basic

/-!
# Entries of directories on the volume

The loops over the blocks of a directory here return a place, and the block there is written. That
is what the loops that return the blocks do.
-/

namespace Wpmfs.Volume

open Bytes Dir Namei

variable {name : Name} {bs : List Block} {inode d i k n : ℕ} {data : ℕ → Block} {c : Cell}
  {f : Block → Block}

theorem map_range_modify :
    (List.range n).map (Function.update data i (f (data i))) =
      ((List.range n).map data).modify i f := by
  refine List.ext_getElem (by simp) fun j hj _ => ?_
  simp only [List.length_map, List.length_range] at hj
  rw [List.getElem_modify]
  simp only [List.getElem_map, List.getElem_range, Function.update_apply]
  split <;> grind

theorem map_range_append {b : Block} :
    (List.range (n + 1)).map (Function.update data n b) = (List.range n).map data ++ [b] := by
  rw [List.range_succ, List.map_append]
  congr 1
  · refine List.map_congr_left fun j hj => Function.update_of_ne ?_ ..
    exact (List.mem_range.mp hj).ne
  · simp

/-- `addToBlocks` finds the place that `roomFrom` finds. -/
theorem addToBlocks_cases (name : Name) (inode k : ℕ) (bs : List Block) :
    (roomFrom name k bs = none ∧ addToBlocks name inode bs = none) ∨
    (roomFrom name k bs = some none ∧ addToBlocks name inode bs = some (.error .enospc)) ∨
    ∃ i de, roomFrom name k bs = some (some (k + i, de)) ∧
      addToBlocks name inode bs =
        some (.ok (bs.modify i fun b => insertDirent b de name inode)) := by
  induction bs generalizing k with
  | nil => exact .inr (.inl ⟨rfl, rfl⟩)
  | cons b bs ih =>
    rw [roomFrom, addToBlocks, pmfsAddDirentToBuf]
    cases findRoom b (pmfsDirRecLen name.length) 0 with
    | none => exact .inl ⟨rfl, rfl⟩
    | some de =>
      cases de with
      | some de => exact .inr (.inr ⟨0, de, rfl, rfl⟩)
      | none =>
        simp only [Option.map_some]
        rcases ih (k + 1) with ⟨hroom, hadd⟩ | ⟨hroom, hadd⟩ | ⟨i, de, hroom, hadd⟩
        · exact .inl ⟨hroom, by rw [hadd]; rfl⟩
        · exact .inr (.inl ⟨hroom, by rw [hadd]; rfl⟩)
        · refine .inr (.inr ⟨i + 1, de, ?_, by rw [hadd]; rfl⟩)
          rw [hroom, Nat.add_right_comm, Nat.add_assoc]

/-- `removeFromBlocks` finds the entry that `entryFrom` finds. -/
theorem removeFromBlocks_cases (name : Name) (k : ℕ) (bs : List Block) :
    (entryFrom name k bs = none ∧ removeFromBlocks name bs = none) ∨
    ∃ i res prev, entryFrom name k bs = some (k + i, res, prev) ∧
      removeFromBlocks name bs = some (bs.modify i fun b => unlinkDirent b res prev) := by
  induction bs generalizing k with
  | nil => exact .inl ⟨rfl, rfl⟩
  | cons b bs ih =>
    have hnext : (entryFrom name (k + 1) bs = none ∧
          (removeFromBlocks name bs).map (b :: ·) = none) ∨
        ∃ i res prev, entryFrom name (k + 1) bs = some (k + i, res, prev) ∧
          (removeFromBlocks name bs).map (b :: ·) =
            some ((b :: bs).modify i fun b => unlinkDirent b res prev) := by
      rcases ih (k + 1) with ⟨hentry, hremove⟩ | ⟨i, res, prev, hentry, hremove⟩
      · exact .inl ⟨hentry, by rw [hremove]; rfl⟩
      · refine .inr ⟨i + 1, res, prev, ?_, by rw [hremove]; rfl⟩
        rw [hentry, Nat.add_right_comm, Nat.add_assoc]
    rw [entryFrom, removeFromBlocks]
    cases pmfsSearchDirblock b name with
    | found res prev => exact .inr ⟨0, res, prev, rfl, rfl⟩
    | notFound => exact hnext
    | bad => exact hnext

/-! ## Cells -/

/-- A slot that is not free holds an inode, and an inode in memory is the one in its slot. -/
structure Cell.Ok (c : Cell) : Prop where
  used : ¬c.pi.IsFree → c.pi.iMode ≠ 0 ∧ c.pi.iDtime = 0
  cached : ∀ m, c.inode = some m → ¬c.pi.IsFree ∧
    m = ⟨c.pi.iMode, m.iNlink, c.pi.iSize, c.pi.append, c.pi.immutable, m.startLookup⟩

/-- What the operations on names see of an inode number. -/
def Cell.view (ino : ℕ) (c : Cell) : Option Namei.Inode :=
  if c.pi.IsFree then none else some ⟨kindOf c.pi.iMode, c.links, c.dirInode ino⟩

/-- Only the contents of a directory change. -/
structure Cell.Rewritten (c c' : Cell) : Prop where
  pi : c'.pi = { c.pi with iSize := c'.pi.iSize }
  inode : c'.inode = c.inode.map fun m => { m with iSize := c'.pi.iSize }

namespace Cell

variable {c c' : Cell} {g : Links → Links} {m : VfsInode}

theorem Ok.inUse (h : c.Ok) (hm : c.inode ≠ none) : ¬c.pi.IsFree := by
  obtain ⟨m, hm⟩ := Option.ne_none_iff_exists'.mp hm
  exact (h.cached m hm).1

theorem view_of_inUse (h : ¬c.pi.IsFree) :
    c.view d = some ⟨kindOf c.pi.iMode, c.links, c.dirInode d⟩ := if_neg h

theorem view_of_free (h : c.pi.IsFree) : c.view d = none := if_pos h

/-- A slot that holds an inode is not free. -/
theorem not_isFree (hmode : c.pi.iMode ≠ 0) (hdtime : c.pi.iDtime = 0) : ¬c.pi.IsFree :=
  fun h => h.2.elim hmode fun h => h hdtime

theorem links_modifyLinks (hm : c.inode ≠ none) : (c.modifyLinks g).links = g c.links := by
  obtain ⟨m, hm⟩ := Option.ne_none_iff_exists'.mp hm
  simp [links, modifyLinks, hm]

theorem dirInode_modifyLinks : (c.modifyLinks g).dirInode d = c.dirInode d := by
  cases hm : c.inode <;> simp [dirInode, modifyLinks, hm]

theorem Ok.modifyLinks (h : c.Ok) (hm : c.inode ≠ none) : (c.modifyLinks g).Ok := by
  obtain ⟨hmode, hdtime⟩ := h.used (h.inUse hm)
  refine ⟨fun _ => ⟨hmode, hdtime⟩, fun m hmem => ⟨not_isFree hmode hdtime, ?_⟩⟩
  obtain ⟨n, hn, rfl⟩ := Option.map_eq_some_iff.mp hmem
  rw [(h.cached n hn).2]
  rfl

theorem view_modifyLinks (hmode : c.pi.iMode ≠ 0) (hdtime : c.pi.iDtime = 0)
    (hm : c.inode ≠ none) :
    (c.modifyLinks g).view d = (c.view d).map fun i => { i with links := g i.links } := by
  have hused : ¬(c.modifyLinks g).pi.IsFree := not_isFree hmode hdtime
  rw [view_of_inUse hused, view_of_inUse (not_isFree hmode hdtime), links_modifyLinks hm,
    dirInode_modifyLinks]
  rfl

theorem Rewritten.isFree (h : c.Rewritten c') : c'.pi.IsFree ↔ c.pi.IsFree := by
  rw [h.pi]

theorem Rewritten.ok (h : c.Rewritten c') (hc : c.Ok) : c'.Ok := by
  refine ⟨fun hused => ?_, fun m hm => ?_⟩
  · rw [h.isFree] at hused
    rw [h.pi]
    exact hc.used hused
  · rw [h.isFree]
    rw [h.inode] at hm
    obtain ⟨n, hn, rfl⟩ := Option.map_eq_some_iff.mp hm
    obtain ⟨hused, hsync⟩ := hc.cached n hn
    refine ⟨hused, ?_⟩
    rw [h.pi, hsync]

theorem Rewritten.links (h : c.Rewritten c') : c'.links = c.links := by
  rw [Cell.links, Cell.links, h.inode, h.pi]
  cases c.inode <;> rfl

theorem Rewritten.view (h : c.Rewritten c') :
    c'.view d = (c.view d).map fun i => { i with dir := c'.dirInode d } := by
  by_cases hfree : c.pi.IsFree
  · rw [view_of_free hfree, view_of_free (h.isFree.mpr hfree)]
    rfl
  · rw [view_of_inUse hfree, view_of_inUse (mt h.isFree.mp hfree), h.links, h.pi]
    rfl

theorem Ok.modifyBlock (h : c.Ok) : c.Rewritten (c.modifyBlock i f) := by
  refine ⟨rfl, ?_⟩
  cases hm : c.inode with
  | none => simpa [Cell.modifyBlock] using hm
  | some m =>
    have hsync := (h.cached m hm).2
    rw [Option.map_some, Cell.modifyBlock, hm, hsync]

theorem dirInode_modifyBlock : (c.modifyBlock i f).dirInode d =
    { c.dirInode d with blocks := (c.dirInode d).blocks.modify i f } := by
  cases hm : c.inode <;> simp [dirInode, Cell.modifyBlock, hm, map_range_modify]

theorem rewritten_appendBlock {b : Block} : c.Rewritten (appendBlock name inode b c) := by
  refine ⟨rfl, ?_⟩
  simp [appendBlock, Cell.modifyBlock, modifyInode]

theorem dirInode_appendBlock {b : Block} (hm : c.inode ≠ none) :
    (appendBlock name inode b c).dirInode d = { c.dirInode d with
      blocks := (c.dirInode d).blocks ++
        [insertDirent (setDeLen (setIno b 0 0) 0 blockSize) 0 name inode] } := by
  obtain ⟨m, hm⟩ := Option.ne_none_iff_exists'.mp hm
  simp [appendBlock, Cell.modifyBlock, modifyInode, dirInode, hm, map_range_append]

end Cell

/-! ## Calls on a directory -/

variable {v : Volume} {t : Trans} {a : Tree} {g : Cell → Cell} {x y : ℕ} {l : Links → Links}

@[simp] theorem modify_self : (v.modify x g).cells x = g (v.cells x) := Function.update_self ..

theorem modify_of_ne (h : y ≠ x) : (v.modify x g).cells y = v.cells y :=
  Function.update_of_ne h ..

@[simp] theorem Trans.modify_vol : (t.modify x g).vol = t.vol.modify x g := rfl

@[simp] theorem Trans.modify_log : (t.modify x g).log = t.log := rfl

@[simp] theorem Trans.logInode_vol : (t.logInode x).vol = t.vol := rfl

theorem toFs_inodes : v.toFs.inodes x = (v.cells x).view x := rfl

theorem modify_modify {f : Cell → Cell} : (v.modify x f).modify x g = v.modify x (g ∘ f) := by
  simp [Volume.modify]

theorem modify_comm {f : Cell → Cell} (h : x ≠ y) :
    (v.modify x f).modify y g = (v.modify y g).modify x f := by
  simp [Volume.modify, Function.update_of_ne h, Function.update_of_ne h.symm,
    Function.update_comm h]

theorem toFs_modify {i : Namei.Inode → Namei.Inode}
    (h : (g (v.cells x)).view x = ((v.cells x).view x).map i) :
    (v.modify x g).toFs = v.toFs.modify x i := by
  refine congrArg Fs.mk (funext fun y => ?_)
  change ((v.modify x g).cells y).view y = (v.toFs.modify x i).inodes y
  by_cases hyx : y = x
  · rw [hyx, modify_self, h]
    rw [Fs.modify_self]
    rfl
  · rw [modify_of_ne hyx, Fs.modify_of_ne hyx, toFs_inodes]

theorem toFs_modifyLinks (hmode : (v.pi x).iMode ≠ 0) (hdtime : (v.pi x).iDtime = 0)
    (hm : v.inode x ≠ none) :
    (v.modify x (Cell.modifyLinks l)).toFs = v.toFs.modifyLinks x l :=
  toFs_modify (Cell.view_modifyLinks hmode hdtime hm)

theorem toFs_rewritten (h : (v.cells x).Rewritten (g (v.cells x))) :
    (v.modify x g).toFs = v.toFs.modifyDir x fun _ => (g (v.cells x)).dirInode x :=
  toFs_modify h.view

/-- An inode of the tree has a slot that is in use. -/
theorem inUse_of_kind {k : Kind} (h : v.toFs.Models a) (hk : a.kind x = some k) :
    ¬(v.pi x).IsFree ∧ kindOf (v.pi x).iMode = k ∧ (v.cells x).links = a.links x ∧
      v.toFs.inodes x = some ⟨k, a.links x, (v.cells x).dirInode x⟩ := by
  obtain ⟨i, hi, -, rfl, hlinks⟩ := h.get hk
  have hview : (v.cells x).view x = some i := hi
  rw [Cell.view] at hview
  split at hview
  · cases hview
  · rename_i hused
    cases hview
    exact ⟨hused, rfl, hlinks, by rw [hi, ← hlinks]⟩

theorem kind_of_inUse (h : v.toFs.Models a) (hx : ¬(v.pi x).IsFree) :
    a.kind x = some (kindOf (v.pi x).iMode) ∧ a.links x = (v.cells x).links := by
  have hview : v.toFs.inodes x = some ⟨kindOf (v.pi x).iMode, (v.cells x).links,
      (v.cells x).dirInode x⟩ := Cell.view_of_inUse hx
  refine ⟨?_, (h.links x _ hview).symm⟩
  rw [← h.kind, hview]
  rfl

theorem kind_of_free (h : v.toFs.Models a) (hx : (v.pi x).IsFree) : a.kind x = none := by
  have hview : v.toFs.inodes x = none := Cell.view_of_free hx
  rw [← h.kind, hview]
  rfl

/-- An error of the allocator. Which one it is does not matter to who else allocates. -/
def lower {α : Type} (e : Except Code α) : Except Errno α := e.mapError fun _ => .enospc

/-- The directory `d` changes, and only its contents do. -/
structure Rewrites (v v' : Volume) (d : ℕ) (g : Cell → Cell) : Prop where
  eq : v' = v.modify d g
  rewritten : (v.cells d).Rewritten (g (v.cells d))

theorem Rewrites.models {v' : Volume} {p : Place} {w : Option ℕ} (hv : v.Rewrites v' p.1 g)
    (h : v.toFs.Models a) (hdir : Houses ((g (v.cells p.1)).dirInode p.1) (a.parent p.1)
      (Function.update (fun n => a.entry (p.1, n)) p.2 w)) :
    v'.toFs.Models (a.setEntry p w) := by
  rw [hv.eq, toFs_rewritten hv.rewritten]
  exact h.setEntry fun _ _ _ => hdir

@[simp] theorem logDirent_vol {b : ℕ} : (logDirent t d b k).vol = t.vol := by
  rw [logDirent]
  split <;> rfl

theorem pmfsAddEntry_spec {p : Place} (alloc : Except Code Block) (h : t.vol.toFs.Models a)
    (hok : (t.vol.cells p.1).Ok) (hm : t.vol.inode p.1 ≠ none) (hd : a.kind p.1 = some .dir) (hname : Fs.NormName p.2)
    (hfree : a.entry p = none) (hrange : inode ≠ 0 ∧ inode < 2 ^ 64) :
    (∃ e, alloc = .error e ∧
      pmfsAddEntry t p.1 p.2 inode alloc = some (.error e, t.logInode p.1)) ∨
    ∃ t' g, pmfsAddEntry t p.1 p.2 inode alloc = some (.ok (), t') ∧
      t.vol.Rewrites t'.vol p.1 g ∧ t'.vol.toFs.Models (a.setEntry p (some inode)) := by
  obtain ⟨-, -, -, hi⟩ := inUse_of_kind h hd
  have hlen : p.2.length ≠ 0 := fun hlen => hname.ne_nil (List.length_eq_zero_iff.mp hlen)
  have hadd := (h.dir p.1 _ hi rfl).add (lower alloc) hname.ne_nil hname.length_le hname.ne_dot
    hname.ne_dotdot hfree hrange.1 hrange.2
  unfold Dir.pmfsAddEntry at hadd
  rw [if_neg hlen] at hadd
  rw [pmfsAddEntry, if_neg hlen]
  dsimp only [Trans.logInode] at hadd ⊢
  rcases addToBlocks_cases p.2 inode 0 ((t.vol.cells p.1).dirInode p.1).blocks with
    ⟨-, hnone⟩ | ⟨hroom, hfull⟩ | ⟨i, de, hroom, hput⟩
  · simp [hnone] at hadd
  · rw [hroom]
    rw [hfull] at hadd
    cases alloc with
    | error e => exact .inl ⟨e, rfl, rfl⟩
    | ok b =>
      have hwrites : t.vol.Rewrites (t.vol.modify p.1 (appendBlock p.2 inode b)) p.1 _ :=
        ⟨rfl, Cell.rewritten_appendBlock⟩
      refine .inr ⟨_, _, rfl, hwrites, hwrites.models h ?_⟩
      obtain ⟨e, he, -⟩ | ⟨dir, hdir, hhouses⟩ := hadd
      · cases he
      · cases hdir
        rw [Cell.dirInode_appendBlock hm]
        exact hhouses
  · rw [hroom, Nat.zero_add]
    rw [hput] at hadd
    have hwrites : t.vol.Rewrites ((logDirent (t.logInode p.1) p.1 i de).modify p.1
        (Cell.modifyBlock i fun b => insertDirent b de p.2 inode)).vol p.1 _ :=
      ⟨congrArg (Volume.modify · p.1 _) logDirent_vol, hok.modifyBlock⟩
    refine .inr ⟨_, _, rfl, hwrites, hwrites.models h ?_⟩
    obtain ⟨e, -, he⟩ | ⟨dir, hdir, hhouses⟩ := hadd
    · cases he
    · cases hdir
      rw [Cell.dirInode_modifyBlock]
      exact hhouses

theorem pmfsRemoveEntry_spec {p : Place} (h : t.vol.toFs.Models a) (hok : (t.vol.cells p.1).Ok)
    (hd : a.kind p.1 = some .dir) (hdot : p.2 ≠ dot) (hdotdot : p.2 ≠ dotdot)
    (hname : a.entry p ≠ none) :
    ∃ t' g, pmfsRemoveEntry t p.1 p.2 = (.ok (), t') ∧ t.vol.Rewrites t'.vol p.1 g ∧
      t'.vol.toFs.Models (a.setEntry p none) := by
  obtain ⟨-, -, -, hi⟩ := inUse_of_kind h hd
  obtain ⟨dir, hremove, hhouses⟩ := (h.dir p.1 _ hi rfl).remove hdot hdotdot hname
  unfold Dir.pmfsRemoveEntry at hremove
  rw [pmfsRemoveEntry]
  split at hremove
  · cases hremove
  · rename_i hlen
    rw [if_neg hlen]
    rcases removeFromBlocks_cases p.2 0 ((t.vol.cells p.1).dirInode p.1).blocks with
      ⟨-, hnone⟩ | ⟨i, res, prev, hentry, htake⟩
    · simp [hnone] at hremove
    · rw [htake] at hremove
      cases hremove
      rw [hentry, Nat.zero_add]
      have hwrites : t.vol.Rewrites
          (t.vol.modify p.1 (Cell.modifyBlock i fun b => unlinkDirent b res prev)) p.1 _ :=
        ⟨rfl, hok.modifyBlock⟩
      have hmodels := hwrites.models h (w := none) (by
        rw [Cell.dirInode_modifyBlock]
        exact hhouses)
      cases prev with
      | none => exact ⟨_, _, rfl, hwrites, hmodels⟩
      | some prev => exact ⟨_, _, rfl, hwrites, hmodels⟩

/-! ## Volumes that hold the same -/

/-- The slots, the directories and the truncate list are as they were, and so are the inodes in
memory but for hints. The inode table may have grown. -/
structure Kept (v v' : Volume) : Prop where
  pi : ∀ x, v'.pi x = v.pi x
  data : ∀ x, ¬(v.pi x).IsFree → (v'.cells x).data = (v.cells x).data
  inode : ∀ x, v'.inode x = v.inode x ∨
    ∃ m k, v.inode x = some m ∧ v'.inode x = some { m with startLookup := k }
  sTruncate : v'.sTruncate = v.sTruncate
  iNextTruncate : v'.iNextTruncate = v.iNextTruncate
  head : v'.head = v.head
  grown : v.sInodesCount ≤ v'.sInodesCount

theorem Kept.refl (v : Volume) : v.Kept v :=
  ⟨fun _ => rfl, fun _ _ => rfl, fun _ => .inl rfl, rfl, rfl, rfl, le_rfl⟩

theorem Kept.trans {u w : Volume} (h : u.Kept v) (h' : v.Kept w) : u.Kept w := by
  refine ⟨fun x => (h'.pi x).trans (h.pi x), fun x hx => ?_, fun x => ?_,
    h'.sTruncate.trans h.sTruncate, h'.iNextTruncate.trans h.iNextTruncate,
    h'.head.trans h.head, h.grown.trans h'.grown⟩
  · exact (h'.data x (by rwa [h.pi])).trans (h.data x hx)
  · rcases h'.inode x with heq | ⟨m, k, hm, hk⟩
    · rw [heq]
      exact h.inode x
    · refine .inr ?_
      rcases h.inode x with heq' | ⟨n, j, hn, hj⟩
      · exact ⟨m, k, heq' ▸ hm, hk⟩
      · rw [hj] at hm
        cases hm
        exact ⟨n, k, hn, hk⟩

theorem Kept.inode_ne_none {v' : Volume} (h : v.Kept v') :
    v'.inode x ≠ none ↔ v.inode x ≠ none := by
  rcases h.inode x with heq | ⟨m, k, hm, hk⟩
  · rw [heq]
  · simp [hm, hk]

/-- A directory is the same but for its hint. -/
theorem Kept.view {v' : Volume} (h : v.Kept v') : ∃ k : ℕ → ℕ, ∀ y,
    (v'.cells x).view y = ((v.cells x).view y).map fun i =>
      { i with dir := { i.dir with startLookup := k y } } := by
  by_cases hfree : (v.pi x).IsFree
  · refine ⟨fun _ => 0, fun y => ?_⟩
    rw [Cell.view_of_free hfree, Cell.view_of_free]
    · rfl
    · change (v'.pi x).IsFree
      rwa [h.pi]
  · have hpi : (v'.cells x).pi = (v.cells x).pi := h.pi x
    have hdata := h.data x hfree
    have hused : ¬(v'.cells x).pi.IsFree := by rwa [hpi]
    refine ⟨fun y => ((v'.cells x).dirInode y).startLookup, fun y => ?_⟩
    rw [Cell.view_of_inUse hfree, Cell.view_of_inUse hused, hpi]
    have hinode := h.inode x
    simp only [Volume.inode] at hinode
    rcases hinode with heq | ⟨m, k, hm, hk⟩
    · simp [Cell.links, Cell.dirInode, heq, hpi, hdata]
    · simp [Cell.links, Cell.dirInode, hm, hk, hpi, hdata]

/-- A volume whose inodes look the same but for hints holds the same tree. -/
theorem models_of_view {v' : Volume} (hv : v.toFs.Models a)
    (h : ∀ x, ∃ k, (v'.cells x).view x = ((v.cells x).view x).map fun i =>
      { i with dir := { i.dir with startLookup := k } }) : v'.toFs.Models a := by
  have hold : ∀ {x i}, v'.toFs.inodes x = some i → ∃ j k, v.toFs.inodes x = some j ∧
      i = { j with dir := { j.dir with startLookup := k } } := by
    intro x i hi
    obtain ⟨k, hview⟩ := h x
    have hi : (v'.cells x).view x = some i := hi
    rw [hview] at hi
    obtain ⟨j, hj, rfl⟩ := Option.map_eq_some_iff.mp hi
    exact ⟨j, k, hj, rfl⟩
  refine ⟨fun x => ?_, fun x i hi => ?_, fun x i hi hd => ?_, hv.range⟩
  · obtain ⟨k, hview⟩ := h x
    rw [← hv.kind x, toFs_inodes, toFs_inodes, hview]
    cases (v.cells x).view x <;> rfl
  · obtain ⟨j, k, hj, rfl⟩ := hold hi
    exact hv.links x j hj
  · obtain ⟨j, k, hj, rfl⟩ := hold hi
    exact (hv.dir x j hj hd).hint k

theorem Kept.models {v' : Volume} (h : v.Kept v') (hv : v.toFs.Models a) : v'.toFs.Models a :=
  models_of_view hv fun x => (h.view (x := x)).elim fun k hk => ⟨k x, hk x⟩

/-- A lookup finds what the tree has, and moves a hint. -/
theorem pmfsInodeByName_spec {p : Place} (h : v.toFs.Models a) (hd : a.kind p.1 = some .dir)
    (hdot : p.2 ≠ dot) (hdotdot : p.2 ≠ dotdot) :
    ∃ r v', v.pmfsInodeByName p.1 p.2 = some (r, v') ∧ v.Kept v' ∧
      v'.sInodesCount = v.sInodesCount ∧ r.iNo = (a.entry p).getD 0 ∧
      ((r.resEntry = none ∧ a.entry p = none) ∨
        ∃ e, r.resEntry = some e ∧ NamedBy ((v.cells p.1).dirInode p.1).blocks p.2 e) := by
  obtain ⟨-, -, -, hi⟩ := inUse_of_kind h hd
  obtain ⟨r, hr, hino, -, hres⟩ := (h.dir p.1 _ hi rfl).lookup hdot hdotdot
  refine ⟨r, v.modify p.1 (Cell.modifyInode fun m => { m with startLookup := r.dir.startLookup }),
    ?_, ?_, rfl, hino, ?_⟩
  · rw [pmfsInodeByName, hr]
    rfl
  · refine ⟨fun x => ?_, fun x _ => ?_, fun x => ?_, rfl, rfl, rfl, le_rfl⟩
    all_goals by_cases hx : x = p.1
    · rw [hx, Volume.pi, modify_self]
      rfl
    · rw [Volume.pi, modify_of_ne hx, Volume.pi]
    · rw [hx, modify_self]
      rfl
    · rw [modify_of_ne hx]
    · rw [hx, Volume.inode, modify_self, Cell.modifyInode, Volume.inode]
      cases (v.cells p.1).inode with
      | none => exact .inl rfl
      | some m => exact .inr ⟨m, _, rfl, rfl⟩
    · rw [Volume.inode, modify_of_ne hx]
      exact .inl rfl
  · rcases hres with hnone | ⟨e, he, -, hnamed⟩
    · exact .inl hnone
    · exact .inr ⟨e, he, hnamed⟩

end Wpmfs.Volume
