import Mathlib.Algebra.Order.Ring.Int
import Mathlib.Algebra.Order.Ring.Nat
import Mathlib.Logic.Relation
import Wpmfs.Namei.Simulation

/-!
# Runs of operations on names

An operation comes with what its caller has looked up before. `Promised` is what the caller makes
sure of: names are looked up first, `.` and `..` are not given as names, a new name goes into a
directory that can be reached, and a directory is neither linked nor unlinked. `Guarded` is what the
call checks itself.
-/

namespace Wpmfs.Namei

open Dir

inductive Op where
  | create (p : Place) (ino : ℕ) (alloc : Except Errno Block)
  | mknod (p : Place) (kind : Kind) (ino : ℕ) (alloc : Except Errno Block)
  | symlink (p : Place) (len ino : ℕ) (block : Except Errno Unit) (alloc : Except Errno Block)
  | link (inode : ℕ) (p : Place) (alloc : Except Errno Block)
  | unlink (p : Place) (inode : ℕ)
  | mkdir (p : Place) (ino : ℕ) (fresh alloc : Except Errno Block)
  | rmdir (p : Place) (inode : ℕ)
  | rename (p : Place) (inode : ℕ) (q : Place) (replaced : Option ℕ) (alloc : Except Errno Block)
  | evict (ino : ℕ)

namespace Op

def exec (s : Fs) : Op → Result Fs
  | create p ino alloc => pmfsCreate s p.1 p.2 ino alloc
  | mknod p kind ino alloc => pmfsMknod s p.1 p.2 kind ino alloc
  | symlink p len ino block alloc => pmfsSymlink s p.1 p.2 len ino block alloc
  | link inode p alloc => pmfsLink s inode p.1 p.2 alloc
  | unlink p inode => pmfsUnlink s p.1 p.2 inode
  | mkdir p ino fresh alloc => pmfsMkdir s p.1 p.2 ino fresh alloc
  | rmdir p inode => pmfsRmdir s p.1 p.2 inode
  | rename p inode q replaced alloc => pmfsRename s p.1 p.2 inode q.1 q.2 replaced alloc
  | evict ino => pure (pmfsEvictInode s ino)

/-- What a call does to the tree. -/
def apply (a : Tree) : Op → Tree
  | create p ino _ => a.create p ino .reg
  | mknod p kind ino _ => a.create p ino kind
  | symlink p _ ino _ _ => a.create p ino .lnk
  | link inode p _ => a.link p inode
  | unlink p inode => a.unlink p inode
  | mkdir p ino _ _ => a.mkdir p ino
  | rmdir p inode => a.rmdir p inode
  | rename p inode q _ _ => a.rename p q inode
  | evict ino =>
    if a.kind ino ≠ none ∧ a.nlink ino = 0 ∧ a.kind ino ≠ some .special then a.evict ino else a

/-- A name may be put there. -/
structure MayName (a : Tree) (p : Place) : Prop where
  live : a.Live p.1
  norm : Fs.NormName p.2
  free : a.entry p = none

/-- No inode has the number. -/
structure FreeIno (a : Tree) (ino : ℕ) : Prop where
  free : a.kind ino = none
  pos : ino ≠ 0
  lt : ino < 2 ^ 64

def Promised (a : Tree) : Op → Prop
  | create p ino _ => MayName a p ∧ FreeIno a ino
  | mknod p kind ino _ => MayName a p ∧ FreeIno a ino ∧ kind ≠ .dir
  | symlink p _ ino _ _ => MayName a p ∧ FreeIno a ino
  | link inode p _ => MayName a p ∧ a.kind inode ≠ none ∧ a.kind inode ≠ some .dir
  | unlink p inode => a.entry p = some inode ∧ a.kind inode ≠ some .dir
  | mkdir p ino _ _ => MayName a p ∧ FreeIno a ino
  | rmdir p inode => a.entry p = some inode ∧ a.kind inode = some .dir
  | rename p inode q replaced _ =>
    a.entry p = some inode ∧ a.Live q.1 ∧ Fs.NormName q.2 ∧ replaced = a.entry q ∧
      replaced ≠ some inode ∧
      ∀ n, replaced = some n → (a.kind n = some .dir ↔ a.kind inode = some .dir)
  | evict _ => True

/-- A directory may be moved into `d`, over what the new entry names. -/
def MayReplace (a : Tree) (d : ℕ) : Option ℕ → Prop
  | some n => a.Vacant n
  | none => a.nlink d < pmfsLinkMax

def Guarded (a : Tree) : Op → Prop
  | link inode _ _ => a.nlink inode < pmfsLinkMax
  | mkdir p _ _ _ => a.nlink p.1 < pmfsLinkMax
  | rmdir _ inode => a.Vacant inode
  | rename _ inode q replaced _ =>
    a.kind inode = some .dir → MayReplace a q.1 replaced
  | _ => True

/-- The allocator has blocks for the call, and a symbolic link fits into one. -/
def Supplied : Op → Prop
  | create _ _ alloc => ∃ b, alloc = .ok b
  | mknod _ _ _ alloc => ∃ b, alloc = .ok b
  | symlink _ len _ block alloc => len + 1 ≤ blockSize ∧ block = .ok () ∧ ∃ b, alloc = .ok b
  | link _ _ alloc => ∃ b, alloc = .ok b
  | mkdir _ _ fresh alloc => (∃ b, fresh = .ok b) ∧ ∃ b, alloc = .ok b
  | rename _ _ _ _ alloc => ∃ b, alloc = .ok b
  | _ => True

end Op

namespace Fs

variable {s s' : Fs} {a : Tree} {ino inode d : ℕ} {p q : Place} {k : Kind} {op : Op}
  {alloc fresh : Except Errno Block}

theorem Models.addNondir (h : s.Models a) (alloc) (hp : Op.MayName a p) (hi : Op.FreeIno a ino)
    (hk : k ≠ .dir) :
    (∃ e, alloc = .error e ∧
      pmfsAddNondir (pmfsNewInode s ino k) p.1 p.2 ino alloc = throw e) ∨
    ∃ s', pmfsAddNondir (pmfsNewInode s ino k) p.1 p.2 ino alloc = pure s' ∧
      s'.Models (a.create p ino k) := by
  have hne : p.1 ≠ ino := by
    rintro rfl
    have := hp.live.1
    rw [hi.free] at this
    cases this
  have hnew : (pmfsNewInode s ino k).Models (a.newInode ino k p.1) :=
    h.set rfl (fun hd => absurd hd hk) ⟨hi.pos, hi.lt⟩
  have hd : (a.newInode ino k p.1).kind p.1 = some .dir := by
    rw [Tree.newInode_kind, Function.update_of_ne hne, hp.live.1]
  exact hnew.addEntry alloc hd hp.norm hp.free ⟨hi.pos, hi.lt⟩

theorem Models.link (h : s.Models a) (hp : Op.MayName a p) (hi : a.kind inode = some k) :
    (∃ e, pmfsLink s inode p.1 p.2 alloc = throw e ∧
      ¬(a.nlink inode < pmfsLinkMax ∧ ∃ b, alloc = .ok b)) ∨
    ∃ s', pmfsLink s inode p.1 p.2 alloc = pure s' ∧ a.nlink inode < pmfsLinkMax ∧
      s'.Models (a.link p inode) := by
  obtain ⟨i, -, hget, -, hlinks⟩ := h.get hi
  rw [pmfsLink, hget, pure_bind, hlinks, ← Tree.nlink]
  by_cases hmax : pmfsLinkMax ≤ a.nlink inode
  · rw [if_pos hmax]
    exact .inl ⟨_, rfl, fun hok => absurd hok.1 (by omega)⟩
  · rw [if_neg hmax]
    rcases h.addEntry alloc hp.live.1 hp.norm hp.free (h.range inode (by simp [hi])) with
      ⟨e, rfl, hadd⟩ | ⟨s', hadd, hmodels⟩
    · rw [hadd]
      exact .inl ⟨e, rfl, by simp⟩
    · rw [hadd, pure_bind]
      exact .inr ⟨_, rfl, by omega, hmodels.modifyLinks⟩

theorem Models.unlink (h : s.Models a) (hn : a.Names) (hp : a.entry p = some inode) :
    ∃ s', pmfsUnlink s p.1 p.2 inode = pure s' ∧ s'.Models (a.unlink p inode) := by
  have hnorm := h.norm_of_entry hn (p := p) (by simp [hp])
  obtain ⟨s', hremove, hmodels⟩ :=
    h.removeEntry (hn.holder p inode hp).1 hnorm.1 hnorm.2
      (show a.entry (p.1, p.2) ≠ none by simp [hp])
  rw [pmfsUnlink, hremove, pure_bind]
  exact ⟨_, rfl, hmodels.modifyLinks⟩

theorem Models.mkdir (h : s.Models a) (hn : a.Names) (hp : Op.MayName a p)
    (hi : Op.FreeIno a ino) :
    (∃ e, pmfsMkdir s p.1 p.2 ino fresh alloc = throw e ∧
      ¬(a.nlink p.1 < pmfsLinkMax ∧ (∃ b, fresh = .ok b) ∧ ∃ b, alloc = .ok b)) ∨
    ∃ s', pmfsMkdir s p.1 p.2 ino fresh alloc = pure s' ∧ a.nlink p.1 < pmfsLinkMax ∧
      s'.Models (a.mkdir p ino) := by
  obtain ⟨i, -, hget, -, hlinks⟩ := h.get hp.live.1
  rw [pmfsMkdir, hget, pure_bind, hlinks, ← Tree.nlink]
  by_cases hmax : pmfsLinkMax ≤ a.nlink p.1
  · rw [if_pos hmax]
    exact .inl ⟨_, rfl, fun hok => absurd hok.1 (by omega)⟩
  rw [if_neg hmax]
  cases fresh with
  | error e => exact .inl ⟨e, rfl, by simp⟩
  | ok b =>
    have hrange := h.range p.1 (by simp [hp.live.1])
    have hempty : (fun n => a.entry (ino, n)) = fun _ => none := by
      funext n
      by_contra hne
      obtain ⟨j, hj⟩ := Option.ne_none_iff_exists'.mp hne
      have := (hn.holder _ j hj).1
      rw [hi.free] at this
      cases this
    have hnew : ((pmfsNewInode s ino .dir).modifyDir ino fun _ => mkdirDir ino p.1 b).Models
        (a.newInode ino .dir p.1) := by
      have hset : (pmfsNewInode s ino .dir).modifyDir ino (fun _ => mkdirDir ino p.1 b) =
          s.set ino ⟨.dir, ⟨1, 1⟩, mkdirDir ino p.1 b⟩ := by
        simp [pmfsNewInode, Fs.set, Fs.modifyDir, Fs.modify]
      rw [hset]
      refine h.set rfl (fun _ => ?_) ⟨hi.pos, hi.lt⟩
      rw [hempty]
      exact houses_mkdirDir hi.pos hi.lt hrange.1 hrange.2
    have hne : p.1 ≠ ino := by
      rintro rfl
      have := hp.live.1
      rw [hi.free] at this
      cases this
    have hd : ((a.newInode ino .dir p.1).modifyLinks ino (Links.setNlink 2)).kind p.1 =
        some .dir := by
      rw [Tree.modifyLinks_kind, Tree.newInode_kind, Function.update_of_ne hne, hp.live.1]
    rcases (hnew.modifyLinks (f := Links.setNlink 2)).addEntry alloc hd hp.norm hp.free
      ⟨hi.pos, hi.lt⟩ with ⟨e, rfl, hadd⟩ | ⟨s', hadd, hmodels⟩
    · refine .inl ⟨e, ?_, by simp⟩
      change (Fs.addEntry _ p.1 p.2 ino (.error e) >>= _) = _
      rw [hadd]
      rfl
    · refine .inr ⟨_, ?_, by omega, hmodels.modifyLinks.modifyLinks⟩
      change (Fs.addEntry _ p.1 p.2 ino alloc >>= _) = _
      rw [hadd, pure_bind]

/-- `pmfs_empty_dir` on a directory of the tree. -/
theorem Models.empty_iff (h : s.Models a) {i : Inode} (hi : s.inodes d = some i)
    (hd : i.kind = .dir) : pmfsEmptyDir i.dir ↔ a.Vacant d := by
  rw [(h.dir d i hi hd).empty_iff, Tree.Vacant, ← h.kind, hi, Option.map_some, hd]
  simp

theorem Models.rmdir (h : s.Models a) (hn : a.Names) (hp : a.entry p = some inode)
    (hi : a.kind inode = some .dir) :
    (∃ e, pmfsRmdir s p.1 p.2 inode = throw e ∧ ¬a.Vacant inode) ∨
    ∃ s', pmfsRmdir s p.1 p.2 inode = pure s' ∧ a.Vacant inode ∧
      s'.Models (a.rmdir p inode) := by
  have hd := (hn.holder p inode hp).1
  have hnorm := h.norm_of_entry hn (p := p) (by simp [hp])
  obtain ⟨r, s₁, hlookup, hmodels, -, hino, -⟩ := h.inodeByName hd hnorm.1 hnorm.2
  have hzero : r.iNo ≠ 0 := by
    have hp' : a.entry (p.1, p.2) = some inode := hp
    rw [hino, hp', Option.getD_some]
    exact (h.range inode (by simp [hi])).1
  obtain ⟨i, hi₁, hget, hkind, -⟩ := hmodels.get hi
  rw [pmfsRmdir, hlookup, pure_bind]
  dsimp only
  rw [if_neg hzero, hget, pure_bind]
  by_cases hv : a.Vacant inode
  · have hempty : pmfsEmptyDir i.dir := (hmodels.empty_iff hi₁ hkind).mpr hv
    obtain ⟨s₂, hremove, hmodels₂⟩ :=
      hmodels.removeEntry hd hnorm.1 hnorm.2 (show a.entry (p.1, p.2) ≠ none by simp [hp])
    rw [if_neg (by simp [hempty]), hremove, pure_bind]
    exact .inr ⟨_, rfl, hv, hmodels₂.modifyLinks.modifyLinks⟩
  · have hempty : ¬pmfsEmptyDir i.dir := fun he => hv ((hmodels.empty_iff hi₁ hkind).mp he)
    rw [if_pos (by simpa using hempty)]
    exact .inl ⟨_, rfl, hv⟩

theorem Models.renameCheck (h : s.Models a) (isDir : Bool) {n : Option ℕ}
    (hd : a.kind d = some .dir)
    (hn : ∀ j, n = some j → a.kind j ≠ none ∧ (isDir → a.kind j = some .dir)) :
    (∃ e, renameCheck s isDir d n = throw e ∧ ¬(isDir → Op.MayReplace a d n)) ∨
    renameCheck s isDir d n = pure () ∧ (isDir → Op.MayReplace a d n) := by
  cases isDir with
  | false =>
    cases n with
    | none => exact .inr ⟨rfl, by simp⟩
    | some j =>
      obtain ⟨k, hk⟩ := Option.ne_none_iff_exists'.mp (hn j rfl).1
      obtain ⟨i, -, hget, -, -⟩ := h.get hk
      refine .inr ⟨?_, by simp⟩
      rw [Namei.renameCheck, hget, pure_bind]
      rfl
  | true =>
    cases n with
    | none =>
      obtain ⟨i, -, hget, -, hlinks⟩ := h.get hd
      rw [Namei.renameCheck, if_pos rfl, hget, pure_bind, hlinks, ← Tree.nlink]
      by_cases hmax : pmfsLinkMax ≤ a.nlink d
      · rw [if_pos hmax]
        exact .inl ⟨_, rfl, by simpa [Op.MayReplace] using hmax⟩
      · rw [if_neg hmax]
        exact .inr ⟨rfl, fun _ => by simpa [Op.MayReplace] using hmax⟩
    | some j =>
      obtain ⟨i, hi, hget, hkind, -⟩ := h.get ((hn j rfl).2 rfl)
      rw [Namei.renameCheck, hget, pure_bind]
      have hempty := h.empty_iff hi hkind
      by_cases hv : a.Vacant j
      · rw [if_neg (by simpa using hempty.mpr hv)]
        exact .inr ⟨rfl, fun _ => hv⟩
      · rw [if_pos (by simpa using fun he => hv (hempty.mp he))]
        exact .inl ⟨_, rfl, by simpa [Op.MayReplace] using hv⟩

theorem Models.renameEnter (h : s.Models a) (alloc) (hd : a.kind q.1 = some .dir)
    (hq : NormName q.2) (hrange : inode ≠ 0 ∧ inode < 2 ^ 64) {entry : Option (ℕ × ℕ)} {i : Inode}
    (hi : s.inodes q.1 = some i)
    (hentry : (entry = none ∧ a.entry q = none) ∨
      ∃ e, entry = some e ∧ NamedBy i.dir.blocks q.2 e) :
    (∃ e, alloc = .error e ∧ renameEnter s inode q.1 q.2 alloc entry = throw e) ∨
    ∃ s', renameEnter s inode q.1 q.2 alloc entry = pure s' ∧
      s'.Models (a.setEntry q (some inode)) := by
  rcases hentry with ⟨rfl, hfree⟩ | ⟨e, rfl, hnamed⟩
  · exact h.addEntry alloc hd hq hfree hrange
  · exact .inr ⟨_, rfl, h.setEntryIno hq.ne_dot hq.ne_dotdot hi hnamed hrange⟩

theorem Models.renameCounts (h : s.Models a) {isDir : Bool} {old new : ℕ} {n : Option ℕ} :
    (renameCounts s isDir old new n).Models (a.renameCounts isDir old new n) := by
  cases n with
  | some n => exact h.modifyLinks
  | none =>
    cases isDir with
    | false => exact h
    | true => exact h.modifyLinks.modifyLinks

theorem Models.rename (h : s.Models a) (hn : a.Names) (hp : a.entry p = some inode)
    (hql : a.Live q.1) (hq : NormName q.2) (hqi : a.entry q ≠ some inode)
    (hkinds : ∀ n, a.entry q = some n → (a.kind n = some .dir ↔ a.kind inode = some .dir)) :
    (∃ e, pmfsRename s p.1 p.2 inode q.1 q.2 (a.entry q) alloc = throw e ∧
      ¬((a.kind inode = some .dir → Op.MayReplace a q.1 (a.entry q)) ∧ ∃ b, alloc = .ok b)) ∨
    ∃ s', pmfsRename s p.1 p.2 inode q.1 q.2 (a.entry q) alloc = pure s' ∧
      (a.kind inode = some .dir → Op.MayReplace a q.1 (a.entry q)) ∧
      s'.Models (a.rename p q inode) := by
  have hpd := (hn.holder p inode hp).1
  have hnorm := h.norm_of_entry hn (p := p) (by simp [hp])
  obtain ⟨k, hk⟩ := Option.ne_none_iff_exists'.mp (hn.target p inode hp).1
  obtain ⟨r, s₁, hlookup, hmodels₁, hhints₁, -, hres⟩ := h.inodeByName hql.1 hq.ne_dot hq.ne_dotdot
  obtain ⟨r', s₂, hlookup', hmodels₂, hhints₂, -, -⟩ :=
    hmodels₁.inodeByName hpd hnorm.1 hnorm.2
  obtain ⟨i, -, hget, hkind, -⟩ := hmodels₂.get hk
  have hisDir : decide (i.kind = .dir) = decide (a.kind inode = some .dir) := by
    rw [hk, hkind]
    simp
  obtain ⟨c, hc, -, -, -⟩ := hmodels₂.get hql.1
  have hentry : (r.resEntry = none ∧ a.entry q = none) ∨
      ∃ e, r.resEntry = some e ∧ NamedBy c.dir.blocks q.2 e := by
    rcases hres with hnone | ⟨e, j, he, -, hj, hnamed⟩
    · exact .inl hnone
    · refine .inr ⟨e, he, ?_⟩
      have hsame := (hhints₂ q.1).trans (hhints₁ q.1)
      rw [hc, hj, Option.map_some, Option.map_some] at hsame
      rwa [Option.some.inj hsame]
  have hcheck := hmodels₂.renameCheck (decide (a.kind inode = some .dir)) (n := a.entry q)
    hql.1 fun j hj => ⟨(hn.target q j hj).1, fun hd => (hkinds j hj).mpr (by simpa using hd)⟩
  simp only [decide_eq_true_eq] at hcheck
  rw [pmfsRename, hlookup, pure_bind]
  dsimp only
  rw [hlookup', pure_bind]
  dsimp only
  rw [hget, pure_bind, hisDir]
  rcases hcheck with ⟨e, hthrow, hguard⟩ | ⟨hpure, hguard⟩
  · rw [hthrow]
    exact .inl ⟨e, rfl, fun hok => hguard hok.1⟩
  · rw [hpure, pure_bind]
    rcases hmodels₂.renameEnter alloc hql.1 hq (h.range inode (by simp [hk])) hc hentry
      with ⟨e, rfl, hthrow⟩ | ⟨s₃, henter, hmodels₃⟩
    · rw [hthrow]
      exact .inl ⟨e, rfl, by simp⟩
    · have hpq : p ≠ q := fun hpq => hqi (hpq ▸ hp)
      have hold : (a.setEntry q (some inode)).entry (p.1, p.2) ≠ none := by
        rw [Tree.setEntry_entry, Function.update_of_ne hpq, hp]
        simp
      obtain ⟨s₄, hremove, hmodels₄⟩ := hmodels₃.removeEntry hpd hnorm.1 hnorm.2 hold
      rw [henter, pure_bind, hremove, pure_bind]
      exact .inr ⟨_, rfl, hguard, hmodels₄.renameCounts⟩

theorem Models.pmfsEvictInode (h : s.Models a) :
    (pmfsEvictInode s ino).Models (Op.apply a (.evict ino)) := by
  rw [Namei.pmfsEvictInode, Op.apply]
  have hkind := h.kind ino
  cases hi : s.inodes ino with
  | none =>
    rw [hi, Option.map_none] at hkind
    rw [if_neg (by simp [← hkind])]
    exact h
  | some i =>
    rw [hi, Option.map_some] at hkind
    dsimp only
    rw [h.links ino i hi, ← Tree.nlink, ← hkind]
    simp only [ne_eq, reduceCtorEq, not_false_eq_true, true_and, Option.some.injEq]
    split
    · exact h.evict
    · exact h

/-- A call that its caller may make does to the tree what it should, or fails. -/
theorem Models.exec (h : s.Models a) (hn : a.Names) (hop : op.Promised a) :
    (∃ e, op.exec s = throw e ∧ ¬(op.Guarded a ∧ op.Supplied)) ∨
    ∃ s', op.exec s = pure s' ∧ op.Guarded a ∧ s'.Models (op.apply a) := by
  cases op with
  | create p ino alloc =>
    rcases h.addNondir alloc hop.1 hop.2 (show Kind.reg ≠ .dir by decide) with
      ⟨e, rfl, hthrow⟩ | ⟨s', hok, hmodels⟩
    · exact .inl ⟨e, hthrow, by simp [Op.Supplied]⟩
    · exact .inr ⟨s', hok, trivial, hmodels⟩
  | mknod p kind ino alloc =>
    rcases h.addNondir alloc hop.1 hop.2.1 hop.2.2 with
      ⟨e, rfl, hthrow⟩ | ⟨s', hok, hmodels⟩
    · exact .inl ⟨e, hthrow, by simp [Op.Supplied]⟩
    · exact .inr ⟨s', hok, trivial, hmodels⟩
  | symlink p len ino block alloc =>
    rw [Op.exec, pmfsSymlink]
    by_cases hlen : blockSize < len + 1
    · rw [if_pos hlen]
      exact .inl ⟨_, rfl, fun hok => absurd hok.2.1 (by omega)⟩
    · rw [if_neg hlen]
      cases block with
      | error e => exact .inl ⟨e, rfl, fun hok => by simpa using hok.2.2.1⟩
      | ok u =>
        rcases h.addNondir alloc hop.1 hop.2 (show Kind.lnk ≠ .dir by decide) with
          ⟨e, rfl, hthrow⟩ | ⟨s', hok, hmodels⟩
        · exact .inl ⟨e, hthrow, by simp [Op.Supplied]⟩
        · exact .inr ⟨s', hok, trivial, hmodels⟩
  | link inode p alloc =>
    obtain ⟨k, hk⟩ := Option.ne_none_iff_exists'.mp hop.2.1
    exact h.link hop.1 hk
  | unlink p inode =>
    obtain ⟨s', hok, hmodels⟩ := h.unlink hn hop.1
    exact .inr ⟨s', hok, trivial, hmodels⟩
  | mkdir p ino fresh alloc => exact h.mkdir hn hop.1 hop.2
  | rmdir p inode =>
    refine (h.rmdir hn hop.1 hop.2).imp ?_ id
    rintro ⟨e, hthrow, hv⟩
    exact ⟨e, hthrow, fun hok => hv hok.1⟩
  | rename p inode q replaced alloc =>
    obtain ⟨hp, hql, hq, rfl, hqi, hkinds⟩ := hop
    exact h.rename hn hp hql hq hqi hkinds
  | evict ino => exact .inr ⟨_, rfl, trivial, h.pmfsEvictInode⟩

end Fs

end Wpmfs.Namei
