import Wpmfs.Volume.Calls

/-!
# Calls that make a name

What each of them does when something it needs is not there, and what it does when nothing is
missing. A call that fails after it has a new inode gets rid of that inode, and the abort of its
transaction brings back the slot.
-/

namespace Wpmfs.Volume

open Bytes Dir Namei
open Wpmfs.Inode (PmfsInode Truncates)

variable {v v' : Volume} {a a' : Tree} {t : Trans} {x y ino mode : ℕ} {env : Env} {p : Place}
  {g : Cell → Cell} {n : NewInode} {k : Kind}

/-- A call was done, and took the tree `a` to `a'`. What lost its last link is on the list. -/
structure Done (v v' : Volume) (a a' : Tree) : Prop where
  inv : v'.Inv a'
  keeps : ∀ x ∈ v.sTruncate, x ∈ v'.sTruncate
  dropped : ∀ x, a'.kind x ≠ none → a'.nlink x = 0 →
    x ∈ v'.sTruncate ∨ a.kind x ≠ none ∧ a.nlink x = 0

/-! ## New inodes -/

/-- The only change is the inode `ino`, and the log has its slot. -/
structure Lone (v : Volume) (t : Trans) (ino : ℕ) : Prop where
  log : ∀ e ∈ t.log, ∃ x, e = .slot x (v.pi x)
  logged : LogEntry.slot ino (v.pi ino) ∈ t.log
  other : ∀ y, y ≠ ino → t.vol.cells y = v.cells y
  sTruncate : t.vol.sTruncate = v.sTruncate
  iNextTruncate : t.vol.iNextTruncate = v.iNextTruncate
  head : t.vol.head = v.head
  grown : v.sInodesCount ≤ t.vol.sInodesCount
  inTable : t.vol.InTable ino
  free : (v.pi ino).IsFree
  absent : v.inode ino = none

theorem Lone.logInode (h : v.Lone t ino) (hx : x ≠ ino) : v.Lone (t.logInode x) ino := by
  refine { h with log := fun e he => ?_, logged := List.mem_cons_of_mem _ h.logged }
  rcases List.mem_cons.mp he with rfl | he
  · exact ⟨x, by rw [Volume.pi, h.other x hx, Volume.pi]⟩
  · exact h.log e he

theorem Lone.modify (h : v.Lone t ino) : v.Lone (t.modify ino g) ino :=
  { h with other := fun y hy => (modify_of_ne hy).trans (h.other y hy) }

/-- Getting rid of the new inode leaves what the log can undo. -/
theorem Lone.evict (h : v.Lone t ino) (hsane : v.Sane) :
    v.Undoable { t with vol := t.vol.pmfsEvictInode ino env } := by
  have hnot : ino ∉ t.vol.sTruncate := by
    rw [h.sTruncate]
    exact fun hmem => hsane.onList ino hmem h.absent
  have hother : ∀ y, y ≠ ino → (t.vol.pmfsEvictInode ino env).cells y = v.cells y := fun y hy =>
    (modify_of_ne hy).trans ((modify_of_ne hy).trans (h.other y hy))
  have hdel : (t.vol.modify ino (evictFrees env)).pmfsTruncateDel ino =
      t.vol.modify ino (evictFrees env) := pmfsTruncateDel_of_notMem hnot
  rw [pmfsEvictInode, hdel] at hother ⊢
  refine ⟨h.log, fun y => ?_, fun y hy => ?_, fun y => ?_, h.sTruncate, h.iNextTruncate, h.head,
    h.grown⟩
  all_goals by_cases hyi : y = ino
  · rw [hyi]
    exact .inr h.logged
  · exact .inl (congrArg Cell.pi (hother y hyi))
  · rw [hyi] at hy
    exact absurd h.free hy
  · rw [hother y hyi]
  · rw [hyi, h.absent, Volume.inode, modify_self]
  · exact congrArg Cell.inode (hother y hyi)

/-- What is in the inode number of a new inode. -/
def newCell (mode : ℕ) (data : ℕ → Block) : Cell :=
  ⟨newSlot mode, some ⟨mode, 1, 0, false, false, 0⟩, data⟩

/-- The inode table grows by free slots, which were beyond its end before. -/
theorem Sane.grow_spec (h : v.Sane) (grown : Bool) : (grow v.start grown).vol.cells = v.cells ∧
    (grow v.start grown).vol.sTruncate = v.sTruncate ∧
    (grow v.start grown).vol.iNextTruncate = v.iNextTruncate ∧
    (grow v.start grown).vol.head = v.head ∧
    v.sInodesCount ≤ (grow v.start grown).vol.sInodesCount ∧
    (grow v.start grown).log = [] := by
  cases grown with
  | false => exact ⟨rfl, rfl, rfl, rfl, le_rfl, rfl⟩
  | true =>
    refine ⟨funext fun x => ?_, rfl, rfl, rfl, Nat.le_add_right .., rfl⟩
    change (if _ ∧ _ then { v.cells x with pi := zeroSlot } else v.cells x) = v.cells x
    split
    · rename_i hx
      have hout : (v.cells x).pi = zeroSlot := h.outside x (Nat.not_lt.mpr hx.1)
      rw [← hout]
    · rfl

/-- `pmfs_new_inode` logs the slot that it writes. -/
theorem Sane.writeSlot_spec (h : v.Sane) (ino mode : ℕ) (grown : Bool) :
    (writeSlot (grow v.start grown) ino mode).log = [.slot ino (v.pi ino)] ∧
      (writeSlot (grow v.start grown) ino mode).vol.cells ino =
        { v.cells ino with pi := newSlot mode } ∧
      ∀ y, y ≠ ino →
        (writeSlot (grow v.start grown) ino mode).vol.cells y = v.cells y := by
  obtain ⟨hcells, -, -, -, -, hlog⟩ := h.grow_spec grown
  refine ⟨?_, ?_, fun y hy => ?_⟩
  · change LogEntry.slot ino ((grow v.start grown).vol.cells ino).pi :: (grow v.start grown).log = _
    rw [hlog, hcells]
    rfl
  · rw [writeSlot, Trans.modify_vol, modify_self, Trans.logInode_vol, hcells]
  · rw [writeSlot, Trans.modify_vol, modify_of_ne hy, Trans.logInode_vol, hcells]

theorem pmfsNewInode_spec (mode : ℕ) (h : v.Sane) (hn : n.Promised v) :
    (∃ e t, pmfsNewInode v.start mode n = (.error e, t) ∧ v.Undoable t ∧
      ∀ ino grown, n ≠ .found ino grown) ∨
    ∃ ino grown t, n = .found ino grown ∧ pmfsNewInode v.start mode n = (.ok ino, t) ∧
      v.Lone t ino ∧ t.vol.cells ino = newCell mode (v.cells ino).data ∧ ino ≠ 0 ∧
      ino < 2 ^ 64 := by
  cases n with
  | none e =>
    exact .inl ⟨e, v.start, rfl, ⟨by simp [start], fun _ => .inl rfl, fun _ _ => rfl, fun _ => rfl,
      rfl, rfl, rfl, le_rfl⟩, nofun⟩
  | clash ino grown =>
    obtain ⟨-, hlist, hnext, hhead, hcount, -⟩ := h.grow_spec grown
    obtain ⟨hlog, hself, hother⟩ := h.writeSlot_spec ino mode grown
    refine .inl ⟨_, _, rfl, ⟨fun e he => ?_, fun y => ?_, fun y _ => ?_, fun y => ?_, hlist, hnext,
      hhead, hcount⟩, nofun⟩
    · rw [hlog, List.mem_singleton] at he
      exact ⟨ino, he⟩
    all_goals by_cases hy : y = ino
    · rw [hlog, hy]
      exact .inr (List.mem_singleton_self _)
    · exact .inl (congrArg Cell.pi (hother y hy))
    · rw [hy, hself]
    · rw [hother y hy]
    · rw [hy, Volume.inode, hself]
      rfl
    · exact congrArg Cell.inode (hother y hy)
  | found ino grown =>
    obtain ⟨⟨hin, hfree, hpos, hlt⟩, habsent⟩ := hn
    obtain ⟨hcells, hlist, hnext, hhead, hcount, -⟩ := h.grow_spec grown
    obtain ⟨hlog, hself, hother⟩ := h.writeSlot_spec ino mode grown
    refine .inr ⟨ino, grown, _, rfl, rfl, ⟨fun e he => ?_, ?_, fun y hy => ?_, hlist, hnext, hhead,
      hcount, hin, ?_, habsent⟩, ?_, hpos, hlt⟩
    · exact ⟨ino, List.mem_singleton.mp (hlog ▸ he)⟩
    · exact hlog ▸ List.mem_singleton_self _
    · rw [Trans.modify_vol, modify_of_ne hy, hother y hy]
    · rwa [Volume.pi, hcells] at hfree
    · rw [Trans.modify_vol, modify_self, hself]
      rfl

theorem toFs_set {w : Volume} {i : Namei.Inode} (hother : ∀ y, y ≠ x → w.cells y = v.cells y)
    (hx : (w.cells x).view x = some i) : w.toFs = v.toFs.set x i := by
  refine congrArg Fs.mk (funext fun y => ?_)
  change (w.cells y).view y = (v.toFs.set x i).inodes y
  by_cases hyx : y = x
  · rw [hyx, hx, Fs.set_self]
  · rw [hother y hyx, Fs.set_of_ne hyx]
    rfl

theorem view_newCell {data : ℕ → Block} :
    (newCell mode data).view x = some ⟨kindOf mode, ⟨1, 1⟩, ⟨x, [], 0⟩⟩ := by
  rw [Cell.view_of_inUse]
  · rfl
  · exact fun h => Nat.one_ne_zero h.1

theorem ok_newCell {data : ℕ → Block} (hmode : mode ≠ 0) : (newCell mode data).Ok := by
  refine ⟨fun _ => ⟨hmode, rfl⟩, fun m hm => ⟨Cell.not_isFree hmode rfl, ?_⟩⟩
  obtain rfl := Option.some.inj hm
  rfl

theorem Inv.mayName (h : v.Inv a) (hp : v.MayName p) : Op.MayName a p :=
  hp.1.congr h.models.tree_kind (h.models.tree_entry h.names)

theorem Lone.freeIno (h : v.Lone t ino) (hv : v.Inv a) (hpos : ino ≠ 0) (hlt : ino < 2 ^ 64) :
    Op.FreeIno a ino := ⟨kind_of_free hv.models h.free, hpos, hlt⟩

theorem ne_of_freeIno (hp : Op.MayName a p) (hi : Op.FreeIno a ino) : p.1 ≠ ino := by
  rintro rfl
  have hdir := hp.live.1
  rw [hi.free] at hdir
  cases hdir

theorem Lone.sane (h : v.Lone t ino) (hv : v.Sane) (hok : (t.vol.cells ino).Ok)
    (hpos : ino ≠ 0) : t.vol.Sane := by
  refine hv.set h.other hok hpos h.inTable h.grown ?_ fun y hy => ?_
  · rw [h.iNextTruncate, h.head, h.sTruncate]
    exact hv.chain
  · rw [h.sTruncate] at hy
    rw [if_neg]
    · exact hy
    · rintro rfl
      exact hv.onList y hy h.absent

/-- `pmfs_add_nondir` of a new inode. -/
theorem Inv.pmfsAddNondir (h : v.Inv a) (env : Env) (hp : v.MayName p) (hlone : v.Lone t ino)
    (hcell : t.vol.cells ino = newCell mode (v.cells ino).data) (hpos : ino ≠ 0)
    (hlt : ino < 2 ^ 64) (hdir : kindOf mode ≠ .dir) (hmode : mode ≠ 0) :
    (∃ e t', pmfsAddNondir t p ino env = some (.error e, t') ∧ env.alloc = .error e ∧
      v.Undoable t') ∨
    ∃ t', pmfsAddNondir t p ino env = some (.ok (), t') ∧ (t'.vol.pi ino).iMode = mode ∧
      v.Done t'.vol a (a.create p ino (kindOf mode)) := by
  have hname := h.mayName hp
  have hfree := hlone.freeIno h hpos hlt
  have hne : p.1 ≠ ino := ne_of_freeIno hname hfree
  have hsame := hlone.other p.1 hne
  have hnew : t.vol.toFs.Models (a.newInode ino (kindOf mode) p.1) := by
    rw [toFs_set hlone.other (hcell ▸ view_newCell)]
    exact h.models.set rfl (fun hd => absurd hd hdir) ⟨hpos, hlt⟩
  have hkind : (a.newInode ino (kindOf mode) p.1).kind p.1 = some .dir := by
    rw [Tree.newInode_kind, Function.update_of_ne hne, hname.live.1]
  have hok : (t.vol.cells p.1).Ok := hsame ▸ h.sane.ok p.1
  have hm : t.vol.inode p.1 ≠ none := by
    rw [Volume.inode, hsame]
    exact hp.2
  rw [Volume.pmfsAddNondir]
  rcases pmfsAddEntry_spec env.alloc hnew hok hm hkind hname.norm hname.free
    ⟨hpos, hlt⟩ with ⟨e, halloc, hadd⟩ | ⟨t', g, hadd, hwrites, hmodels⟩
  · rw [hadd]
    exact .inl ⟨e, _, rfl, halloc, ((hlone.logInode hne).modify).evict h.sane⟩
  · rw [hadd]
    have hself : t'.vol.cells ino = newCell mode (v.cells ino).data := by
      rw [hwrites.eq, modify_of_ne hne.symm, hcell]
    have hsane : t'.vol.Sane := by
      rw [hwrites.eq]
      refine (hlone.sane h.sane (hcell ▸ ok_newCell hmode) hpos).modify hm
        (hwrites.rewritten.ok hok) ?_
      rw [hwrites.rewritten.inode]
      simpa [Volume.inode] using hm
    have hlist : t'.vol.sTruncate = v.sTruncate := by
      rw [hwrites.eq]
      exact hlone.sTruncate
    refine .inr ⟨t', rfl, by rw [Volume.pi, hself]; rfl, ?_, fun x hx => hlist ▸ hx,
      fun x hx hzero => ?_⟩
    · exact h.apply (.mknod p (kindOf mode) ino (lower env.alloc)) ⟨hname, hfree, hdir⟩
        trivial hmodels hsane
    · refine .inr ?_
      by_cases hxi : x = ino
      · subst hxi
        simp [Tree.create, Tree.nlink] at hzero
      · simpa [Tree.create, Tree.nlink, Function.update_of_ne hxi] using And.intro hx hzero

/-! ## The calls -/

/-- The call fails, and the volume holds what it held. -/
def Refused (v : Volume) (r : Result) : Prop := ∃ e v', r = some (.error e, v') ∧ v.Kept v'

/-- The call succeeds with a new inode for the name. -/
def Created (v : Volume) (r : Result) (a : Tree) (mode : ℕ) (after : ℕ → Tree) : Prop :=
  ∃ ino v', r = some (.ok (), v') ∧ (v.pi ino).IsFree ∧ (v'.pi ino).iMode = mode ∧
    v.Done v' a (after ino)

theorem Undoable.refused (h : v.Undoable t) (e : Code) : v.Refused (fail t e) :=
  ⟨e, _, rfl, h.abort⟩

/-- `pmfs_create` and `pmfs_mknod` with an inode for the name. -/
theorem Inv.createNondir_found {grown : Bool} (h : v.Inv a) (hp : v.MayName p)
    (hdir : kindOf mode ≠ .dir) (hmode : mode ≠ 0) (hn : env.newInode.Promised v)
    (htrans : env.trans = .ok ()) (hfound : env.newInode = .found ino grown) :
    (∃ e, env.alloc = .error e ∧ v.Refused (v.createNondir p mode env)) ∨
    ∃ v', v.createNondir p mode env = some (.ok (), v') ∧ (v.pi ino).IsFree ∧
      (v'.pi ino).iMode = mode ∧ v.Done v' a (a.create p ino (kindOf mode)) := by
  rw [Volume.createNondir, htrans]
  rcases pmfsNewInode_spec mode h.sane hn with
    ⟨e, t, -, -, hnone⟩ | ⟨ino', grown', t, hfound', hnew, hlone, hcell, hpos, hlt⟩
  · exact absurd hfound (hnone ino grown)
  · obtain ⟨rfl, -⟩ := NewInode.found.inj (hfound.symm.trans hfound')
    rw [hnew]
    rcases h.pmfsAddNondir env hp hlone hcell hpos hlt hdir hmode with
      ⟨e, t', hadd, halloc, hundo⟩ | ⟨t', hadd, hmode', hdone⟩
    · simp only [hadd]
      exact .inl ⟨e, halloc, hundo.refused e⟩
    · simp only [hadd]
      exact .inr ⟨t'.vol, rfl, hlone.free, hmode', hdone⟩

/-- `pmfs_create` and `pmfs_mknod` also return 0 when there is no inode for the name. -/
theorem Inv.createNondir (h : v.Inv a) (hp : v.MayName p) (hdir : kindOf mode ≠ .dir)
    (hmode : mode ≠ 0) (hn : env.newInode.Promised v) :
    v.Refused (v.createNondir p mode env) ∨
    (∃ v', v.createNondir p mode env = some (.ok (), v') ∧ v.Kept v' ∧ env.trans = .ok () ∧
      ∀ ino grown, env.newInode ≠ .found ino grown) ∨
    v.Created (v.createNondir p mode env) a mode fun ino => a.create p ino (kindOf mode) := by
  cases htrans : env.trans with
  | error e =>
    rw [Volume.createNondir, htrans]
    exact .inl ⟨e, v, rfl, .refl v⟩
  | ok _ =>
    rcases pmfsNewInode_spec mode h.sane hn with
      ⟨e, t, hnew, hundo, hnone⟩ | ⟨ino, grown, -, hfound, -⟩
    · rw [Volume.createNondir, htrans, hnew]
      exact .inr (.inl ⟨_, rfl, hundo.abort, rfl, hnone⟩)
    · rcases h.createNondir_found hp hdir hmode hn htrans hfound with ⟨e, -, hr⟩ | ⟨v', hr⟩
      · exact .inl hr
      · exact .inr (.inr ⟨ino, v', hr⟩)

theorem Inv.pmfsSymlink (h : v.Inv a) (hp : v.MayName p) (hn : env.newInode.Promised v) (len : ℕ) :
    v.Refused (v.pmfsSymlink p len env) ∨
    v.Created (v.pmfsSymlink p len env) a (sIflnk ||| sIrwxugo) fun ino => a.create p ino .lnk := by
  rw [Volume.pmfsSymlink]
  split
  · exact .inl ⟨_, v, rfl, .refl v⟩
  cases env.trans with
  | error e => exact .inl ⟨e, v, rfl, .refl v⟩
  | ok _ =>
    rcases pmfsNewInode_spec (sIflnk ||| sIrwxugo) h.sane hn with
      ⟨e, t, hnew, hundo, -⟩ | ⟨ino, grown, t, -, hnew, hlone, hcell, hpos, hlt⟩
    · rw [hnew]
      exact .inl (hundo.refused e)
    · rw [hnew]
      cases hfresh : env.fresh with
      | error e => exact .inl ((hlone.modify.evict h.sane).refused e)
      | ok b =>
        rcases h.pmfsAddNondir env hp hlone hcell hpos hlt (by decide) (by decide) with
          ⟨e, t', hadd, -, hundo⟩ | ⟨t', hadd, hmode, hdone⟩
        · simp only [hadd]
          exact .inl (hundo.refused e)
        · simp only [hadd]
          exact .inr ⟨ino, t'.vol, rfl, hlone.free, hmode, hdone⟩

theorem kindOf_sIfdir (hmode : mode &&& sIfmt = 0) : kindOf (sIfdir ||| mode) = .dir := by
  have hbits : (sIfdir ||| mode) &&& sIfmt = sIfdir := by
    rw [Nat.and_or_distrib_right, hmode]
    rfl
  rw [kindOf, hbits]
  decide

theorem sIfdir_ne_zero : sIfdir ||| mode ≠ 0 :=
  fun h => absurd (Nat.or_eq_zero_iff.mp h).1 (by decide)

/-- The inode number of a new directory. -/
def dirCell (mode : ℕ) (data : ℕ → Block) : Cell :=
  ⟨⟨⟨2, mode, 0⟩, 1, false, false⟩, some ⟨mode, 2, 1, false, false, 0⟩, data⟩

theorem ok_dirCell {data : ℕ → Block} (hmode : mode ≠ 0) : (dirCell mode data).Ok := by
  refine ⟨fun _ => ⟨hmode, rfl⟩, fun m hm => ⟨Cell.not_isFree hmode rfl, ?_⟩⟩
  obtain rfl := Option.some.inj hm
  rfl

theorem view_writeDots (x mode parent : ℕ) (b : Block) (data : ℕ → Block) :
    (writeDots x parent b (newCell mode data)).view x =
      some ⟨kindOf mode, ⟨1, 1⟩, mkdirDir x parent b⟩ := by
  have hblocks : (List.range 1).map (Function.update data 0 (mkdirBlock x parent b)) =
      [mkdirBlock x parent b] := by simp
  rw [Cell.view_of_inUse fun h => Nat.one_ne_zero h.1]
  change some (⟨kindOf mode, ⟨1, 1⟩, ⟨x, (List.range 1).map _, 0⟩⟩ : Namei.Inode) = _
  rw [mkdirDir, ← hblocks]
  rfl

theorem toFs_updateIsize : (v.modify x updateIsize).toFs = v.toFs := by
  have hview : ∀ c : Cell, (updateIsize c).view x = c.view x := by
    intro c
    rw [Cell.view, Cell.view]
    cases hm : c.inode <;> simp [updateIsize, Cell.links, Cell.dirInode, hm, PmfsInode.IsFree]
  refine congrArg Fs.mk (funext fun y => ?_)
  change ((v.modify x updateIsize).cells y).view y = (v.cells y).view y
  by_cases hyx : y = x
  · rw [hyx, modify_self, hview]
  · rw [modify_of_ne hyx]

/-- The tree after the first steps of `pmfs_mkdir`. -/
theorem Inv.models_writeDots (h : v.Inv a) (hlone : v.Lone t ino)
    (hcell : t.vol.cells ino = newCell mode (v.cells ino).data) (hpos : ino ≠ 0)
    (hlt : ino < 2 ^ 64) (hdir : kindOf mode = .dir) (hmode : mode ≠ 0)
    (hp : a.kind p.1 = some .dir) (b : Block) :
    ((t.modify ino (writeDots ino p.1 b)).modify ino
      (Cell.modifyLinks (Links.setNlink 2))).vol.toFs.Models
        ((a.newInode ino .dir p.1).modifyLinks ino (Links.setNlink 2)) := by
  have hfree : a.kind ino = none := kind_of_free h.models hlone.free
  have hself : (t.vol.modify ino (writeDots ino p.1 b)).cells ino =
      writeDots ino p.1 b (newCell mode (v.cells ino).data) := by rw [modify_self, hcell]
  have hview := hself ▸ view_writeDots ino mode p.1 b (v.cells ino).data
  have hother : ∀ y, y ≠ ino →
      (t.vol.modify ino (writeDots ino p.1 b)).cells y = v.cells y :=
    fun y hy => (hlone.modify (g := writeDots ino p.1 b)).other y hy
  have hempty : (fun n => a.entry (ino, n)) = fun _ => none := by
    funext n
    by_contra hne
    obtain ⟨j, hj⟩ := Option.ne_none_iff_exists'.mp hne
    have hholder := (h.names.holder _ j hj).1
    rw [hfree] at hholder
    cases hholder
  have hparent := h.models.range p.1 (by simp [hp])
  have hmodels : (t.vol.modify ino (writeDots ino p.1 b)).toFs.Models
      (a.newInode ino .dir p.1) := by
    rw [toFs_set hother hview, hdir]
    refine h.models.set rfl (fun _ => ?_) ⟨hpos, hlt⟩
    rw [hempty]
    exact houses_mkdirDir hpos hlt hparent.1 hparent.2
  rw [Trans.modify_vol, Trans.modify_vol, toFs_modifyLinks]
  · exact hmodels.modifyLinks
  all_goals simp only [Volume.pi, Volume.inode, hself]
  · exact hmode
  · rfl
  · exact Option.some_ne_none _

theorem nlink_mkdir (hne : p.1 ≠ ino) (hx : (a.mkdir p ino).kind x ≠ none)
    (hzero : (a.mkdir p ino).nlink x = 0) : a.kind x ≠ none ∧ a.nlink x = 0 := by
  by_cases hxp : x = p.1
  · simp [Tree.nlink, Tree.mkdir, hxp] at hzero
  · by_cases hxi : x = ino
    · subst hxi
      simp [Tree.nlink, Tree.mkdir, Function.update_of_ne hxp, Links.pmfsUpdateNlink,
        Links.setNlink] at hzero
    · simpa [Tree.nlink, Tree.mkdir, Function.update_of_ne hxp, Function.update_of_ne hxi] using
        And.intro hx hzero

/-- The steps of `pmfs_mkdir` after the new entry, from a directory with two links in memory. -/
theorem Inv.mkdir_done {data : ℕ → Block} {b : Block} {t' : Trans} (h : v.Inv a)
    (hname : Op.MayName a p) (hmax : a.nlink p.1 < pmfsLinkMax) (hlone : v.Lone t ino)
    (hcell : t.vol.cells ino =
      Cell.modifyLinks (Links.setNlink 2) (writeDots ino p.1 b (newCell mode data)))
    (hm : t.vol.inode p.1 ≠ none) (hpos : ino ≠ 0) (hlt : ino < 2 ^ 64) (hmode : mode ≠ 0)
    (hwrites : t.vol.Rewrites t'.vol p.1 g)
    (hmodels : t'.vol.toFs.Models (((a.newInode ino .dir p.1).modifyLinks ino
      (Links.setNlink 2)).setEntry p (some ino))) :
    v.Done (((t'.vol.modify ino (Cell.modifyLinks Links.pmfsUpdateNlink)).modify ino
        updateIsize).modify p.1 (Cell.modifyLinks Links.pmfsIncCount)) a (a.mkdir p ino) ∧
      ((((t'.vol.modify ino (Cell.modifyLinks Links.pmfsUpdateNlink)).modify ino
        updateIsize).modify p.1 (Cell.modifyLinks Links.pmfsIncCount)).pi ino).iMode = mode := by
  have hfree := hlone.freeIno h hpos hlt
  have hne : p.1 ≠ ino := ne_of_freeIno hname hfree
  have hok : (t.vol.cells p.1).Ok := hlone.other p.1 hne ▸ h.sane.ok p.1
  have hok' := hwrites.rewritten.ok hok
  have hm' : (g (t.vol.cells p.1)).inode ≠ none := by
    rw [hwrites.rewritten.inode]
    simpa [Volume.inode] using hm
  obtain ⟨hmode', hdtime'⟩ := hok'.used (hok'.inUse hm')
  have hcell' : t'.vol.cells ino =
      Cell.modifyLinks (Links.setNlink 2) (writeDots ino p.1 b (newCell mode data)) := by
    rw [hwrites.eq, modify_of_ne hne.symm, hcell]
  -- The two cells change independently of each other.
  have hsplit : ((t'.vol.modify ino (Cell.modifyLinks Links.pmfsUpdateNlink)).modify ino
        updateIsize).modify p.1 (Cell.modifyLinks Links.pmfsIncCount) =
      (t.modify ino (updateIsize ∘ Cell.modifyLinks Links.pmfsUpdateNlink)).vol.modify p.1
        (Cell.modifyLinks Links.pmfsIncCount ∘ g) := by
    rw [modify_modify, hwrites.eq, modify_comm hne, modify_modify]
    rfl
  have hself : (t.modify ino (updateIsize ∘ Cell.modifyLinks Links.pmfsUpdateNlink)).vol.cells
      ino = dirCell mode (Function.update data 0 (mkdirBlock ino p.1 b)) := by
    rw [Trans.modify_vol, modify_self, hcell]
    rfl
  have hsane : ((t.modify ino (updateIsize ∘ Cell.modifyLinks Links.pmfsUpdateNlink)).vol.modify p.1
      (Cell.modifyLinks Links.pmfsIncCount ∘ g)).Sane := by
    have hsame : (t.modify ino (updateIsize ∘ Cell.modifyLinks Links.pmfsUpdateNlink)).vol.cells
        p.1 = t.vol.cells p.1 := modify_of_ne hne
    refine (hlone.modify.sane h.sane (hself ▸ ok_dirCell hmode) hpos).modify ?_ ?_ ?_
    · rwa [Volume.inode, hsame]
    · rw [hsame]
      exact hok'.modifyLinks hm'
    · rw [hsame]
      simpa [Cell.modifyLinks] using hm'
  refine ⟨⟨h.apply (.mkdir p ino (.ok b) (.ok b)) ⟨hname, hfree⟩ hmax ?_
    (hsplit ▸ hsane), fun x hx => ?_, fun x hx hzero => .inr (nlink_mkdir hne hx hzero)⟩, ?_⟩
  · rw [toFs_modifyLinks, toFs_updateIsize, toFs_modifyLinks]
    · exact hmodels.modifyLinks.modifyLinks
    all_goals simp only [Volume.pi, Volume.inode, hcell', modify_of_ne hne]
    · exact hmode
    · rfl
    · exact Option.some_ne_none _
    · rwa [hwrites.eq, modify_self]
    · rwa [hwrites.eq, modify_self]
    · rwa [hwrites.eq, modify_self]
  · rw [hsplit]
    exact hlone.sTruncate.symm ▸ hx
  · rw [hsplit, Volume.pi, modify_of_ne hne.symm, hself]
    rfl

theorem Inv.pmfsMkdir (h : v.Inv a) (hp : v.MayName p) (hbits : mode &&& sIfmt = 0)
    (hn : env.newInode.Promised v) :
    v.Refused (v.pmfsMkdir p mode env) ∨
    v.Created (v.pmfsMkdir p mode env) a (sIfdir ||| mode) fun ino => a.mkdir p ino := by
  have hname := h.mayName hp
  obtain ⟨hused, -, hlinks, -⟩ := inUse_of_kind h.models hname.live.1
  rw [Volume.pmfsMkdir, hlinks]
  split
  · exact .inl ⟨_, v, rfl, .refl v⟩
  rename_i hmax
  cases env.trans with
  | error e => exact .inl ⟨e, v, rfl, .refl v⟩
  | ok _ =>
    rcases pmfsNewInode_spec (sIfdir ||| mode) h.sane hn with
      ⟨e, t, hnew, hundo, -⟩ | ⟨ino, grown, t, -, hnew, hlone, hcell, hpos, hlt⟩
    · rw [hnew]
      exact .inl (hundo.refused e)
    rw [hnew]
    dsimp only
    cases hfresh : env.fresh with
    | error e => exact .inl ((hlone.modify.evict h.sane).refused e)
    | ok b =>
      dsimp only
      have hfree := hlone.freeIno h hpos hlt
      have hne : p.1 ≠ ino := ne_of_freeIno hname hfree
      have hmodels := h.models_writeDots hlone hcell hpos hlt (kindOf_sIfdir hbits)
        sIfdir_ne_zero hname.live.1 b
      have hlone' := (hlone.modify (g := writeDots ino p.1 b)).modify
        (g := Cell.modifyLinks (Links.setNlink 2))
      generalize ht : (t.modify ino (writeDots ino p.1 b)).modify ino
        (Cell.modifyLinks (Links.setNlink 2)) = t₁ at hmodels hlone' ⊢
      have hsame := hlone'.other p.1 hne
      have hok : (t₁.vol.cells p.1).Ok := hsame ▸ h.sane.ok p.1
      have hm : t₁.vol.inode p.1 ≠ none := by
        rw [Volume.inode, hsame]
        exact hp.2
      have hkind : ((a.newInode ino .dir p.1).modifyLinks ino (Links.setNlink 2)).kind p.1 =
          some .dir := by
        rw [Tree.modifyLinks_kind, Tree.newInode_kind, Function.update_of_ne hne, hname.live.1]
      rcases pmfsAddEntry_spec env.alloc hmodels hok hm hkind hname.norm hname.free
        ⟨hpos, hlt⟩ with ⟨e, -, hadd⟩ | ⟨t', g, hadd, hwrites, hmodels'⟩
      · rw [hadd]
        exact .inl (((hlone'.logInode hne).modify.evict h.sane).refused e)
      · rw [hadd]
        dsimp only
        have hcell' : t₁.vol.cells ino = Cell.modifyLinks (Links.setNlink 2)
            (writeDots ino p.1 b (newCell (sIfdir ||| mode) (v.cells ino).data)) := by
          rw [← ht, Trans.modify_vol, modify_self, Trans.modify_vol, modify_self, hcell]
        obtain ⟨hdone, hmode⟩ := h.mkdir_done hname (not_le.mp hmax) hlone' hcell' hm hpos hlt
          sIfdir_ne_zero hwrites hmodels'
        exact .inr ⟨ino, _, rfl, hlone.free, hmode, hdone⟩

end Wpmfs.Volume
