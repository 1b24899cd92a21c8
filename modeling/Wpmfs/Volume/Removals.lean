import Wpmfs.Volume.Creations

/-!
# Calls that change names and counts

`pmfs_link`, `pmfs_unlink`, `pmfs_rmdir` and `pmfs_rename`. Whatever loses its last link is on the
truncate list when the call is done.
-/

namespace Wpmfs.Volume

open Bytes Dir Namei
open Wpmfs.Inode (PmfsInode Truncates)

variable {v v' : Volume} {a a' : Tree} {t : Trans} {x y ino size : ℕ} {env : Env} {p q : Place}
  {g : Cell → Cell} {l : Links → Links}

/-! ## Steps of calls -/

theorem Undoable.start (v : Volume) : v.Undoable v.start :=
  ⟨by simp [Volume.start], fun _ => .inl rfl, fun _ _ => rfl, fun _ => rfl, rfl, rfl, rfl, le_rfl⟩

theorem Undoable.logInode (h : v.Undoable t) (hx : t.vol.pi x = v.pi x) :
    v.Undoable (t.logInode x) := by
  refine { h with
    log := fun e he => ?_
    pi := fun y => (h.pi y).imp id (List.mem_cons_of_mem _) }
  rcases List.mem_cons.mp he with rfl | he
  · exact ⟨x, by rw [hx]⟩
  · exact h.log e he

theorem Sane.modifyLinks (h : v.Sane) (hx : v.inode x ≠ none) :
    (v.modify x (Cell.modifyLinks l)).Sane :=
  h.modify hx ((h.ok x).modifyLinks hx) (by simpa [Cell.modifyLinks, Volume.inode] using hx)

theorem Sane.models_modifyLinks (h : v.Sane) (hx : v.inode x ≠ none) (hmodels : v.toFs.Models a) :
    (v.modify x (Cell.modifyLinks l)).toFs.Models (a.modifyLinks x l) := by
  obtain ⟨hmode, hdtime⟩ := (h.ok x).used ((h.ok x).inUse hx)
  rw [toFs_modifyLinks hmode hdtime hx]
  exact hmodels.modifyLinks

theorem inode_modifyLinks : (v.modify x (Cell.modifyLinks l)).inode y ≠ none ↔ v.inode y ≠ none := by
  by_cases hyx : y = x
  · rw [hyx, Volume.inode, modify_self]
    simp [Cell.modifyLinks, Volume.inode]
  · rw [Volume.inode, modify_of_ne hyx, Volume.inode]

theorem Rewrites.inode (h : v.Rewrites v' p.1 g) : v'.inode y ≠ none ↔ v.inode y ≠ none := by
  rw [h.eq, Volume.inode, Volume.inode]
  by_cases hyx : y = p.1
  · rw [hyx, modify_self, h.rewritten.inode]
    simp
  · rw [modify_of_ne hyx]

theorem Sane.rewrites (h : v.Sane) (hw : v.Rewrites v' p.1 g) (hp : v.inode p.1 ≠ none) :
    v'.Sane := by
  have hin := hw.inode.mpr hp
  rw [hw.eq] at hin ⊢
  rw [Volume.inode, modify_self] at hin
  exact h.modify hp (hw.rewritten.ok (h.ok p.1)) hin

theorem Inv.kind_inode (h : v.Inv a) (hx : v.inode x ≠ none) :
    ∃ k, a.kind x = some k ∧ (v.cells x).links = a.links x := by
  obtain ⟨hkind, hlinks⟩ := kind_of_inUse h.models ((h.sane.ok x).inUse hx)
  exact ⟨_, hkind, hlinks.symm⟩

theorem Inv.nlink_ne_zero (h : v.Inv a) (hx : a.Live x) : a.nlink x ≠ 0 := by
  obtain ⟨slack, hcounts⟩ := h.counts
  have := hcounts.live x hx
  omega

/-! ## Links -/

theorem Inv.pmfsLink (h : v.Inv a) (hp : v.MayName p) (hin : v.inode ino ≠ none)
    (hdir : v.toFs.kind ino ≠ some .dir) :
    v.Refused (v.pmfsLink ino p env) ∨
    ∃ v', v.pmfsLink ino p env = some (.ok (), v') ∧ v.Done v' a (a.link p ino) := by
  have hname := h.mayName hp
  obtain ⟨k, hk, hlinks⟩ := h.kind_inode hin
  rw [h.models.kind_eq] at hdir
  rw [Volume.pmfsLink, hlinks]
  split
  · exact .inl ⟨_, v, rfl, .refl v⟩
  rename_i hmax
  cases env.trans with
  | error e => exact .inl ⟨e, v, rfl, .refl v⟩
  | ok _ =>
    have hundo : v.Undoable (v.start.logInode ino) := (Undoable.start v).logInode rfl
    rcases pmfsAddEntry_spec (t := v.start.logInode ino) env.alloc h.models (h.sane.ok p.1) hp.2
      hname.live.1 hname.norm hname.free (h.models.range ino (by simp [hk])) with
      ⟨e, -, hadd⟩ | ⟨t', g, hadd, hwrites, hmodels⟩
    · rw [hadd]
      exact .inl ((hundo.logInode rfl).refused e)
    · rw [hadd]
      have hsane := h.sane.rewrites hwrites hp.2
      have hin' := hwrites.inode.mpr hin
      refine .inr ⟨_, rfl, h.apply (.link ino p (lower env.alloc)) ⟨hname, by simp [hk], hdir⟩
        (not_le.mp hmax) (hsane.models_modifyLinks hin' hmodels) (hsane.modifyLinks hin'), ?_, ?_⟩
      · rw [Trans.modify_vol, hwrites.eq]
        exact fun x hx => hx
      · intro x hx hzero
        refine .inr ⟨hx, ?_⟩
        by_cases hxi : x = ino
        · simp [Tree.nlink, Tree.link, hxi, Links.incNlink, Links.pmfsUpdateNlink] at hzero
        · simpa [Tree.nlink, Tree.link, Function.update_of_ne hxi] using hzero

/-! ## Removals -/

theorem NamedBy.entry_tree (hp : v.NamedBy p ino) (h : v.Inv a) : a.entry p = some ino :=
  (congrFun (h.models.entry_eq h.names) p).symm.trans hp.entry

theorem Inv.pmfsUnlink (h : v.Inv a) (env : Env) (hp : v.NamedBy p ino)
    (hdir : v.toFs.kind ino ≠ some .dir) :
    (∃ e, env.trans = .error e ∧ v.Refused (v.pmfsUnlink p ino env)) ∨
    ∃ v', v.pmfsUnlink p ino env = some (.ok (), v') ∧ v.Done v' a (a.unlink p ino) := by
  have hentry := hp.entry_tree h
  rw [h.models.kind_eq] at hdir
  have hholder := h.names.holder p ino hentry
  have hnorm := h.models.norm_of_entry h.names (p := p) (by simp [hentry])
  rw [Volume.pmfsUnlink]
  cases env.trans with
  | error e => exact .inl ⟨e, rfl, e, v, rfl, .refl v⟩
  | ok _ =>
    obtain ⟨t', g, hremove, hwrites, hmodels⟩ := pmfsRemoveEntry_spec
      (t := v.start.logInode ino) h.models (h.sane.ok p.1) hholder.1 hnorm.1 hnorm.2
      (by simp [hentry])
    rw [hremove]
    dsimp only
    have hsane := h.sane.rewrites hwrites hp.dir
    have hin := hwrites.inode.mpr hp.inode
    have hlist : t'.vol.sTruncate = v.sTruncate := by
      rw [hwrites.eq]
      rfl
    have hlinks : (t'.vol.cells ino).links = a.links ino :=
      (kind_of_inUse hmodels ((hsane.ok ino).inUse hin)).2.symm
    have hzero : ∀ x, x ≠ ino → (a.unlink p ino).nlink x = 0 → a.nlink x = 0 := by
      intro x hxi hx
      simpa [Tree.nlink, Tree.unlink, Function.update_of_ne hxi] using hx
    have hself : (a.unlink p ino).nlink ino = a.nlink ino - 1 := by
      simp [Tree.nlink, Tree.unlink]
    rw [hlinks]
    split
    · obtain ⟨hsane', hmem, hkeeps⟩ := hsane.pmfsTruncateAdd env.iSize hin
      refine .inr ⟨_, rfl, h.apply (.unlink p ino) ⟨hentry, hdir⟩ trivial
        (hsane'.models_modifyLinks hin hmodels) (hsane'.modifyLinks hin),
        fun x hx => hkeeps x (hlist ▸ hx), fun x hx hx0 => ?_⟩
      by_cases hxi : x = ino
      · exact .inl (hxi ▸ hmem)
      · exact .inr ⟨hx, hzero x hxi hx0⟩
    · rename_i hone
      refine .inr ⟨_, rfl, h.apply (.unlink p ino) ⟨hentry, hdir⟩ trivial
        (hsane.models_modifyLinks hin hmodels) (hsane.modifyLinks hin),
        fun x hx => hlist ▸ hx, fun x hx hx0 => .inr ⟨hx, ?_⟩⟩
      by_cases hxi : x = ino
      · subst hxi
        have hone : a.nlink x ≠ 1 := hone
        omega
      · exact hzero x hxi hx0

/-- A lookup leaves everything else as it was. -/
theorem Inv.pmfsInodeByName (h : v.Inv a) (hd : a.kind p.1 = some .dir) (hdot : p.2 ≠ dot)
    (hdotdot : p.2 ≠ dotdot) :
    ∃ r v', v.pmfsInodeByName p.1 p.2 = some (r, v') ∧ v.Kept v' ∧ v'.Inv a ∧
      r.iNo = (a.entry p).getD 0 ∧
      ((r.resEntry = none ∧ a.entry p = none) ∨
        ∃ e, r.resEntry = some e ∧ Dir.NamedBy ((v.cells p.1).dirInode p.1).blocks p.2 e) := by
  obtain ⟨r, v', hr, hkept, -, hino, hres⟩ := pmfsInodeByName_spec h.models hd hdot hdotdot
  exact ⟨r, v', hr, hkept, h.kept hkept, hino, hres⟩

theorem Refused.kept {r : Result} {w : Volume} (h : v.Refused r) (hk : w.Kept v) : w.Refused r := by
  obtain ⟨e, v', hr, hv⟩ := h
  exact ⟨e, v', hr, hk.trans hv⟩

theorem nlink_rmdir (hlive : (a.rmdir p ino).Live p.1)
    (hcount : (a.rmdir p ino).Live p.1 → (a.rmdir p ino).nlink p.1 ≠ 0) (hx : x ≠ ino)
    (hzero : (a.rmdir p ino).nlink x = 0) : a.nlink x = 0 := by
  by_cases hxp : x = p.1
  · exact absurd (hxp ▸ hzero) (hcount hlive)
  · simpa [Tree.nlink, Tree.rmdir, Function.update_of_ne hx, Function.update_of_ne hxp] using hzero

theorem Inv.pmfsRmdir (h : v.Inv a) (hp : v.NamedBy p ino) (hdir : v.toFs.kind ino = some .dir) :
    v.Refused (v.pmfsRmdir p ino env) ∨
    ∃ v', v.pmfsRmdir p ino env = some (.ok (), v') ∧ v.Done v' a (a.rmdir p ino) := by
  have hentry := hp.entry_tree h
  rw [h.models.kind_eq] at hdir
  have hholder := h.names.holder p ino hentry
  have hnorm := h.models.norm_of_entry h.names (p := p) (by simp [hentry])
  obtain ⟨r, w, hlookup, hkept, hw, hino, -⟩ := h.pmfsInodeByName hholder.1 hnorm.1 hnorm.2
  have hzero : r.iNo ≠ 0 := by
    rw [hino, hentry]
    exact (h.models.range ino (by simp [hdir])).1
  have hdirw : w.inode p.1 ≠ none := hkept.inode_ne_none.mpr hp.dir
  have hinw : w.inode ino ≠ none := hkept.inode_ne_none.mpr hp.inode
  obtain ⟨-, -, -, hi⟩ := inUse_of_kind hw.models hdir
  have hempty := hw.models.empty_iff hi rfl
  rw [Volume.pmfsRmdir, hlookup]
  dsimp only
  rw [if_neg hzero]
  split
  · exact .inl ⟨_, w, rfl, hkept⟩
  rename_i hvacant
  have hvacant : a.Vacant ino := hempty.mp (by simpa using hvacant)
  cases env.trans with
  | error e => exact .inl ⟨e, w, rfl, hkept⟩
  | ok _ =>
    obtain ⟨t', g, hremove, hwrites, hmodels⟩ := pmfsRemoveEntry_spec
      (t := w.start.logInode ino) hw.models (hw.sane.ok p.1) hholder.1 hnorm.1 hnorm.2
      (by simp [hentry])
    rw [hremove]
    have hne : p.1 ≠ ino := h.names.ne_vacant hvacant (by simp [hentry])
    have hlist : t'.vol.sTruncate = v.sTruncate := by
      rw [hwrites.eq]
      exact hkept.sTruncate
    have hsane := hw.sane.rewrites hwrites hdirw
    have hin := hwrites.inode.mpr hinw
    have hsane₁ := hsane.modifyLinks (l := fun l => l.clearNlink.pmfsUpdateNlink) hin
    have hmodels₁ := hsane.models_modifyLinks (l := fun l => l.clearNlink.pmfsUpdateNlink) hin
      hmodels
    obtain ⟨hsane₂, hmem, hkeeps⟩ :=
      hsane₁.pmfsTruncateAdd env.iSize (inode_modifyLinks.mpr hin)
    have hdir₂ := inode_modifyLinks (v := t'.vol) (x := ino)
      (l := fun l => l.clearNlink.pmfsUpdateNlink).mpr (hwrites.inode.mpr hdirw)
    have hinv := h.apply (.rmdir p ino) ⟨hentry, hdir⟩ hvacant
      (hsane₂.models_modifyLinks hdir₂ hmodels₁) (hsane₂.modifyLinks hdir₂)
    refine .inr ⟨_, rfl, hinv, fun x hx => hkeeps x (hlist ▸ hx), fun x hx hx0 => ?_⟩
    by_cases hxi : x = ino
    · exact .inl (hxi ▸ hmem)
    · have hlive : (a.rmdir p ino).Live p.1 := by
        have hunbind := (Tree.live_unbind_iff h.names hentry (d := p.1)).mpr ⟨hholder, hne⟩
        exact hunbind
      have hold := nlink_rmdir hlive hinv.nlink_ne_zero hxi hx0
      exact .inr ⟨hx, hold⟩

/-! ## Renames -/

theorem Kept.blocks (h : v.Kept v') (hx : ¬(v.pi x).IsFree) :
    ((v'.cells x).dirInode y).blocks = ((v.cells x).dirInode y).blocks := by
  obtain ⟨k, hview⟩ := h.view (x := x)
  have hused : ¬(v'.cells x).pi.IsFree := by
    have hpi : (v'.cells x).pi = (v.cells x).pi := h.pi x
    rwa [hpi]
  have hy := hview y
  rw [Cell.view_of_inUse hused, Cell.view_of_inUse hx, Option.map_some] at hy
  exact congrArg (fun i : Namei.Inode => i.dir.blocks) (Option.some.inj hy)

theorem renameCheck_spec (h : v.Inv a) (isDir : Bool) (hq : a.kind q.1 = some .dir)
    (hn : ∀ n, a.entry q = some n → isDir = true → a.kind n = some .dir) :
    (∃ e, renameCheck v isDir q.1 (a.entry q) = .error e) ∨
    renameCheck v isDir q.1 (a.entry q) = .ok () ∧
      (isDir = true → Op.MayReplace a q.1 (a.entry q)) := by
  cases isDir with
  | false => cases a.entry q <;> exact .inr ⟨rfl, nofun⟩
  | true =>
    cases hentry : a.entry q with
    | none =>
      have hlinks := (inUse_of_kind h.models hq).2.2.1
      rw [renameCheck, hlinks, Bool.true_and]
      split
      · exact .inl ⟨_, rfl⟩
      · rename_i hmax
        exact .inr ⟨rfl, fun _ => by simpa [Op.MayReplace, Tree.nlink] using hmax⟩
    | some n =>
      obtain ⟨-, -, -, hi⟩ := inUse_of_kind h.models (hn n hentry rfl)
      have hempty := h.models.empty_iff hi rfl
      rw [renameCheck, Bool.true_and]
      split
      · exact .inl ⟨_, rfl⟩
      · rename_i hvacant
        exact .inr ⟨rfl, fun _ => hempty.mp (by simpa using hvacant)⟩

theorem renameEnter_spec {entry : Option (ℕ × ℕ)} (h : v.Inv a) (hm : v.inode q.1 ≠ none)
    (hq : a.kind q.1 = some .dir) (hname : Fs.NormName q.2) (hrange : ino ≠ 0 ∧ ino < 2 ^ 64)
    (alloc : Except Code Block) (hentry : (entry = none ∧ a.entry q = none) ∨
      ∃ e, entry = some e ∧ Dir.NamedBy ((v.cells q.1).dirInode q.1).blocks q.2 e) :
    (∃ e t, renameEnter (v.start.logInode ino) ino q alloc entry = some (.error e, t) ∧
      v.Undoable t) ∨
    ∃ t g, renameEnter (v.start.logInode ino) ino q alloc entry = some (.ok (), t) ∧
      v.Rewrites t.vol q.1 g ∧ t.vol.toFs.Models (a.setEntry q (some ino)) := by
  rcases hentry with ⟨rfl, hfree⟩ | ⟨e, rfl, hnamed⟩
  · rcases pmfsAddEntry_spec (t := v.start.logInode ino) alloc h.models (h.sane.ok q.1) hm hq hname
      hfree hrange with ⟨e, -, hadd⟩ | ⟨t', g, hadd, hwrites, hmodels⟩
    · exact .inl ⟨e, _, hadd, ((Undoable.start v).logInode rfl).logInode rfl⟩
    · exact .inr ⟨t', g, hadd, hwrites, hmodels⟩
  · have hwrites : v.Rewrites
        (v.modify q.1 (Cell.modifyBlock e.1 fun b => setIno b e.2 ino)) q.1 _ :=
      ⟨rfl, (h.sane.ok q.1).modifyBlock⟩
    refine .inr ⟨_, _, rfl, hwrites, hwrites.models h.models ?_⟩
    obtain ⟨-, -, -, hi⟩ := inUse_of_kind h.models hq
    rw [Cell.dirInode_modifyBlock]
    exact (h.models.dir q.1 _ hi rfl).setEntryIno hname.ne_dot hname.ne_dotdot hnamed hrange.1
      hrange.2

theorem renameCounts_spec {b : Tree} {n : Option ℕ} (isDir : Bool) (env : Env) (hsane : t.vol.Sane)
    (hmodels : t.vol.toFs.Models b) (hp : t.vol.inode p.1 ≠ none) (hq : t.vol.inode q.1 ≠ none)
    (hn : ∀ m, n = some m → t.vol.inode m ≠ none) :
    (renameCounts t isDir p.1 q.1 env n).vol.Sane ∧
      (renameCounts t isDir p.1 q.1 env n).vol.toFs.Models (b.renameCounts isDir p.1 q.1 n) ∧
      (∀ x ∈ t.vol.sTruncate, x ∈ (renameCounts t isDir p.1 q.1 env n).vol.sTruncate) ∧
      ∀ m, n = some m → (b.renameCounts isDir p.1 q.1 n).nlink m = 0 →
        m ∈ (renameCounts t isDir p.1 q.1 env n).vol.sTruncate := by
  cases n with
  | none =>
    cases isDir with
    | false => exact ⟨hsane, hmodels, fun _ => id, nofun⟩
    | true =>
      have hsane₁ := hsane.modifyLinks (l := Links.pmfsIncCount) hq
      have hp₁ := inode_modifyLinks (v := t.vol) (x := q.1) (l := Links.pmfsIncCount).mpr hp
      exact ⟨hsane₁.modifyLinks hp₁,
        hsane₁.models_modifyLinks hp₁ (hsane.models_modifyLinks hq hmodels), fun _ => id, nofun⟩
  | some m =>
    have hm := hn m rfl
    have hsane₁ := hsane.modifyLinks (l := Links.replaced isDir) hm
    have hmodels₁ := hsane.models_modifyLinks (l := Links.replaced isDir) hm hmodels
    have hm₁ := inode_modifyLinks (v := t.vol) (x := m) (l := Links.replaced isDir).mpr hm
    have hlinks := (kind_of_inUse hmodels₁ ((hsane₁.ok m).inUse hm₁)).2
    obtain ⟨hsane₂, hmem, hkeeps⟩ := hsane₁.pmfsTruncateAdd env.iSize hm₁
    rw [renameCounts]
    split
    · refine ⟨hsane₂, hmodels₁, hkeeps, ?_⟩
      rintro _ ⟨⟩ -
      exact hmem
    · rename_i hlinked
      refine ⟨hsane₁, hmodels₁, fun _ => id, ?_⟩
      rintro _ ⟨⟩ hzero
      refine absurd ?_ hlinked
      change ((t.vol.modify m (Cell.modifyLinks (Links.replaced isDir))).cells m).links.iNlink = 0
      rw [← hlinks]
      exact hzero

/-- What a rename does to the counts of inodes it does not replace. -/
theorem nlink_rename (hp : (a.rename p q ino).Live p.1 → (a.rename p q ino).nlink p.1 ≠ 0)
    (hlive : a.entry q = none → (a.rename p q ino).Live p.1) (hx : a.entry q ≠ some x)
    (hzero : (a.rename p q ino).nlink x = 0) : a.nlink x = 0 := by
  rw [Tree.rename] at hp hlive hzero
  cases hq : a.entry q with
  | some n =>
    rw [hq] at hzero hx
    have hxn : x ≠ n := fun hxn => hx (by rw [hxn])
    simpa [Tree.nlink, Tree.renameCounts, Tree.move, Function.update_of_ne hxn] using hzero
  | none =>
    rw [hq] at hp hlive hzero
    by_cases hdir : a.kind ino = some .dir
    · by_cases hxp : x = p.1
      · exact absurd (hxp ▸ hzero) (hp (hlive rfl))
      · by_cases hxq : x = q.1
        · simp [Tree.nlink, Tree.renameCounts, hdir, hxq, Function.update_of_ne (hxq ▸ hxp)]
            at hzero
        · simpa [Tree.nlink, Tree.renameCounts, Tree.move, hdir, Function.update_of_ne hxp,
            Function.update_of_ne hxq] using hzero
    · simpa [Tree.nlink, Tree.renameCounts, Tree.move, hdir] using hzero

theorem Inv.isDir_eq (h : v.Inv a) (hx : v.inode x ≠ none) :
    decide (kindOf ((v.inode x).elim 0 VfsInode.iMode) = .dir) =
      decide (a.kind x = some .dir) := by
  obtain ⟨m, hm⟩ := Option.ne_none_iff_exists'.mp hx
  obtain ⟨hused, hsync⟩ := (h.sane.ok x).cached m hm
  have hmode : m.iMode = (v.pi x).iMode := by
    rw [hsync]
    rfl
  rw [(kind_of_inUse h.models hused).1, hm, Option.elim_some, hmode]
  simp

theorem Inv.pmfsRename (h : v.Inv a) (hp : v.NamedBy p ino) (hql : v.toFs.tree.Live q.1)
    (hqm : v.inode q.1 ≠ none) (hname : Fs.NormName q.2) (hqi : v.toFs.entry q ≠ some ino)
    (hkinds : ∀ n, v.toFs.entry q = some n → v.inode n ≠ none ∧
      (v.toFs.kind n = some .dir ↔ v.toFs.kind ino = some .dir)) :
    v.Refused (v.pmfsRename p ino q (v.toFs.entry q) env) ∨
    ∃ v', v.pmfsRename p ino q (v.toFs.entry q) env = some (.ok (), v') ∧
      v.Done v' a (a.rename p q ino) := by
  have hentry := hp.entry_tree h
  rw [h.models.entry_eq h.names] at hqi hkinds ⊢
  rw [h.models.tree_live h.names] at hql
  simp only [h.models.kind_eq] at hkinds
  have hholder := h.names.holder p ino hentry
  have hnorm := h.models.norm_of_entry h.names (p := p) (by simp [hentry])
  have hpq : p ≠ q := fun hpq => hqi (hpq ▸ hentry)
  obtain ⟨k, hk, -⟩ := h.kind_inode hp.inode
  obtain ⟨r, w₁, hlookup, hkept₁, hw₁, -, hres⟩ :=
    h.pmfsInodeByName hql.1 hname.ne_dot hname.ne_dotdot
  obtain ⟨r', w, hlookup', hkept₂, hw, -, -⟩ := hw₁.pmfsInodeByName hholder.1 hnorm.1 hnorm.2
  have hkept := hkept₁.trans hkept₂
  have hin : w.inode ino ≠ none := hkept.inode_ne_none.mpr hp.inode
  have hpd : w.inode p.1 ≠ none := hkept.inode_ne_none.mpr hp.dir
  have hqd : w.inode q.1 ≠ none := hkept.inode_ne_none.mpr hqm
  rw [← hkept.blocks (inUse_of_kind h.models hql.1).1] at hres
  rw [Volume.pmfsRename, hlookup, Option.bind_eq_bind, Option.bind_some]
  dsimp only
  rw [hlookup', Option.bind_some]
  dsimp only
  rw [hw.isDir_eq hin]
  cases env.trans with
  | error e => exact .inl ⟨e, w, rfl, hkept⟩
  | ok _ =>
    dsimp only
    rcases renameCheck_spec hw (decide (a.kind ino = some .dir)) hql.1
      fun n hn hd => ((hkinds n hn).2).mpr (by simpa using hd) with ⟨e, hcheck⟩ | ⟨hcheck, hguard⟩
    · rw [hcheck]
      exact .inl (((Undoable.start w).refused e).kept hkept)
    rw [hcheck]
    rcases renameEnter_spec hw hqd hql.1 hname
      (h.models.range ino (by simp [hk])) env.alloc hres with
      ⟨e, t, henter, hundo⟩ | ⟨t, g, henter, hwrites, hmodels⟩
    · simp only [henter]
      exact .inl ((hundo.refused e).kept hkept)
    have hsane := hw.sane.rewrites hwrites hqd
    have hold : (a.setEntry q (some ino)).entry p ≠ none := by
      rw [Tree.setEntry_entry, Function.update_of_ne hpq, hentry]
      exact Option.some_ne_none ino
    obtain ⟨t', g', hremove, hwrites', hmodels'⟩ := pmfsRemoveEntry_spec hmodels (hsane.ok p.1)
      hholder.1 hnorm.1 hnorm.2 hold
    have hpd' := hwrites.inode.mpr hpd
    have hsane' := hsane.rewrites hwrites' hpd'
    have hin' : ∀ {x}, w.inode x ≠ none → t'.vol.inode x ≠ none := fun hx =>
      hwrites'.inode.mpr (hwrites.inode.mpr hx)
    have hlist : t'.vol.sTruncate = v.sTruncate := by
      rw [hwrites'.eq, ← hkept.sTruncate]
      change t.vol.sTruncate = _
      rw [hwrites.eq]
      rfl
    obtain ⟨hsane₃, hmodels₃, hkeeps, hdropped⟩ := renameCounts_spec (n := a.entry q)
      (decide (a.kind ino = some .dir)) env hsane' hmodels' (hin' hpd) (hin' hqd)
      fun m hm => hin' (hkept.inode_ne_none.mpr (hkinds m hm).1)
    simp only [henter, hremove]
    have hinv := h.apply (.rename p ino q (a.entry q) (lower env.alloc))
      ⟨hentry, hql, hname, rfl, hqi, fun n hn => (hkinds n hn).2⟩
      (fun hd => hguard (by simpa using hd)) hmodels₃ hsane₃
    refine .inr ⟨_, rfl, hinv, fun x hx => hkeeps x (hlist ▸ hx), fun x hx hzero => ?_⟩
    by_cases hqx : a.entry q = some x
    · exact .inl (hdropped x hqx hzero)
    · refine .inr ⟨?_, nlink_rename hinv.nlink_ne_zero (fun hq => ?_) hqx hzero⟩
      · rwa [Tree.rename, Tree.renameCounts_kind] at hx
      · rw [Tree.rename, Tree.live_renameCounts, Tree.live_move_iff h.names hpq hentry hqi]
        exact ⟨hholder, by simp [hq]⟩

end Wpmfs.Volume
