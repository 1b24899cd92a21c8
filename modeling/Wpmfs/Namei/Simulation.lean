import Wpmfs.Namei.LinkCounts

/-!
# The operations on names follow the tree

`Models s a` says that the tree `a` is what the inodes and the directory blocks of `s` hold. Each
step of a call keeps it, so each call does to the tree what the operation of the same name does.
-/

namespace Wpmfs.Namei

open Dir

namespace Fs

variable {s s' : Fs} {a b : Tree} {ino inode d : ℕ} {i : Inode} {p q : Place} {name : Name}
  {k : Kind} {f : Links → Links} {g : DirInode → DirInode} {alloc : Except Errno Block}

structure Models (s : Fs) (a : Tree) : Prop where
  kind : ∀ ino, (s.inodes ino).map Inode.kind = a.kind ino
  links : ∀ ino i, s.inodes ino = some i → i.links = a.links ino
  dir : ∀ ino i, s.inodes ino = some i → i.kind = .dir →
    Houses i.dir (a.parent ino) fun n => a.entry (ino, n)
  range : ∀ ino, a.kind ino ≠ none → ino ≠ 0 ∧ ino < 2 ^ 64

theorem Models.get (h : s.Models a) (hk : a.kind ino = some k) :
    ∃ i, s.inodes ino = some i ∧ s.get ino = pure i ∧ i.kind = k ∧ i.links = a.links ino := by
  have hkind := h.kind ino
  rw [hk] at hkind
  obtain ⟨i, hi, rfl⟩ := Option.map_eq_some_iff.mp hkind
  exact ⟨i, hi, by rw [Fs.get, hi], rfl, h.links ino i hi⟩

@[simp] theorem modify_self {f : Inode → Inode} :
    (s.modify ino f).inodes ino = (s.inodes ino).map f := Function.update_self ..

theorem modify_of_ne {f : Inode → Inode} (hne : d ≠ ino) :
    (s.modify ino f).inodes d = s.inodes d := Function.update_of_ne hne ..

theorem Models.modifyLinks (h : s.Models a) :
    (s.modifyLinks ino f).Models (a.modifyLinks ino f) := by
  refine ⟨fun d => ?_, fun d i hi => ?_, fun d i hi hd => ?_, h.range⟩
  all_goals by_cases hdi : d = ino
  · subst hdi
    rw [Fs.modifyLinks, modify_self, Option.map_map]
    exact h.kind d
  · rw [Fs.modifyLinks, modify_of_ne hdi]
    exact h.kind d
  · subst hdi
    rw [Fs.modifyLinks, modify_self] at hi
    obtain ⟨j, hj, rfl⟩ := Option.map_eq_some_iff.mp hi
    rw [Tree.modifyLinks_links, Function.update_self, h.links d j hj]
  · rw [Fs.modifyLinks, modify_of_ne hdi] at hi
    rw [Tree.modifyLinks_links, Function.update_of_ne hdi, h.links d i hi]
  · subst hdi
    rw [Fs.modifyLinks, modify_self] at hi
    obtain ⟨j, hj, rfl⟩ := Option.map_eq_some_iff.mp hi
    exact h.dir d j hj hd
  · rw [Fs.modifyLinks, modify_of_ne hdi] at hi
    exact h.dir d i hi hd

/-- The blocks of one directory change. -/
theorem Models.modifyDir (h : s.Models a) (hkind : b.kind = a.kind) (hlinks : b.links = a.links)
    (hparent : b.parent = a.parent) (hother : ∀ p : Place, p.1 ≠ d → b.entry p = a.entry p)
    (hself : ∀ i, s.inodes d = some i → i.kind = .dir →
      Houses (g i.dir) (a.parent d) fun n => b.entry (d, n)) :
    (s.modifyDir d g).Models b := by
  refine ⟨fun e => ?_, fun e i hi => ?_, fun e i hi he => ?_, ?_⟩
  · rw [hkind]
    by_cases hed : e = d
    · subst hed
      rw [Fs.modifyDir, modify_self, Option.map_map]
      exact h.kind e
    · rw [Fs.modifyDir, modify_of_ne hed]
      exact h.kind e
  · rw [hlinks]
    by_cases hed : e = d
    · subst hed
      rw [Fs.modifyDir, modify_self] at hi
      obtain ⟨j, hj, rfl⟩ := Option.map_eq_some_iff.mp hi
      exact h.links e j hj
    · rw [Fs.modifyDir, modify_of_ne hed] at hi
      exact h.links e i hi
  · rw [hparent]
    by_cases hed : e = d
    · subst hed
      rw [Fs.modifyDir, modify_self] at hi
      obtain ⟨j, hj, rfl⟩ := Option.map_eq_some_iff.mp hi
      exact hself j hj he
    · rw [Fs.modifyDir, modify_of_ne hed] at hi
      have hsame : (fun n => b.entry (e, n)) = fun n => a.entry (e, n) :=
        funext fun n => hother (e, n) hed
      rw [hsame]
      exact h.dir e i hi he
  · rw [hkind]
    exact h.range

theorem entry_setEntry {v : Option ℕ} : (fun n => (a.setEntry (d, name) v).entry (d, n)) =
    Function.update (fun n => a.entry (d, n)) name v := by
  funext n
  simp [Tree.setEntry, Function.update_apply]

theorem Models.setEntry {v : Option ℕ} (h : s.Models a)
    (hself : ∀ i, s.inodes d = some i → i.kind = .dir →
      Houses (g i.dir) (a.parent d) (Function.update (fun n => a.entry (d, n)) name v)) :
    (s.modifyDir d g).Models (a.setEntry (d, name) v) := by
  refine h.modifyDir rfl rfl rfl (fun p hp => ?_) fun i hi hd => ?_
  · refine Function.update_of_ne ?_ ..
    rintro rfl
    exact hp rfl
  · rw [entry_setEntry]
    exact hself i hi hd

/-- Names that a user may give. -/
structure NormName (name : Name) : Prop where
  ne_nil : name ≠ []
  length_le : name.length ≤ pmfsNameLen
  ne_dot : name ≠ dot
  ne_dotdot : name ≠ dotdot

theorem Models.addEntry (h : s.Models a) (alloc) (hd : a.kind d = some .dir) (hname : NormName name)
    (hfree : a.entry (d, name) = none) (hrange : inode ≠ 0 ∧ inode < 2 ^ 64) :
    (∃ e, alloc = .error e ∧ s.addEntry d name inode alloc = throw e) ∨
    ∃ s', s.addEntry d name inode alloc = pure s' ∧
      s'.Models (a.setEntry (d, name) (some inode)) := by
  obtain ⟨i, hi, hget, hkind, -⟩ := h.get hd
  rw [Fs.addEntry, hget, pure_bind]
  rcases (h.dir d i hi hkind).add alloc hname.ne_nil hname.length_le hname.ne_dot hname.ne_dotdot
    hfree hrange.1 hrange.2 with ⟨e, he, hadd⟩ | ⟨dir, hadd, hhouses⟩
  · rw [hadd]
    exact .inl ⟨e, he, rfl⟩
  · rw [hadd]
    refine .inr ⟨_, rfl, h.setEntry fun j hj _ => ?_⟩
    exact hhouses

theorem Models.removeEntry (h : s.Models a) (hd : a.kind d = some .dir) (hdot : name ≠ dot)
    (hdotdot : name ≠ dotdot) (hname : a.entry (d, name) ≠ none) :
    ∃ s', s.removeEntry d name = pure s' ∧ s'.Models (a.setEntry (d, name) none) := by
  obtain ⟨i, hi, hget, hkind, -⟩ := h.get hd
  obtain ⟨dir, hremove, hhouses⟩ := (h.dir d i hi hkind).remove hdot hdotdot hname
  rw [Fs.removeEntry, hget, pure_bind, hremove]
  exact ⟨_, rfl, h.setEntry fun j hj _ => hhouses⟩

/-- Only the hints of directories differ. -/
def HintsOnly (s s' : Fs) : Prop :=
  ∀ ino, (s'.inodes ino).map (fun i => i.dir.blocks) = (s.inodes ino).map fun i => i.dir.blocks

theorem Models.inodeByName (h : s.Models a) (hd : a.kind d = some .dir) (hdot : name ≠ dot)
    (hdotdot : name ≠ dotdot) :
    ∃ r s', s.inodeByName d name = pure (r, s') ∧ s'.Models a ∧ s.HintsOnly s' ∧
      r.iNo = (a.entry (d, name)).getD 0 ∧
      ((r.resEntry = none ∧ a.entry (d, name) = none) ∨
        ∃ entry i, r.resEntry = some entry ∧ a.entry (d, name) ≠ none ∧
          s.inodes d = some i ∧ NamedBy i.dir.blocks name entry) := by
  obtain ⟨i, hi, hget, hkind, -⟩ := h.get hd
  obtain ⟨r, hr, hino, ⟨hint, hdir⟩, hres⟩ := (h.dir d i hi hkind).lookup hdot hdotdot
  refine ⟨r, s.modifyDir d fun _ => r.dir, ?_, ?_, ?_, hino, ?_⟩
  · rw [Fs.inodeByName, hget, pure_bind, hr]
    rfl
  · refine h.modifyDir rfl rfl rfl (fun _ _ => rfl) fun j hj hjd => ?_
    obtain rfl : i = j := by simpa [hi] using hj
    rw [hdir]
    exact (h.dir d i hi hkind).hint hint
  · intro e
    by_cases hed : e = d
    · subst hed
      rw [Fs.modifyDir, modify_self, Option.map_map, hi]
      simp [hdir]
    · rw [Fs.modifyDir, modify_of_ne hed]
  · rcases hres with hnone | ⟨entry, hentry, hsome, hnamed⟩
    · exact .inl hnone
    · exact .inr ⟨entry, i, hentry, hsome, hi, hnamed⟩

theorem Models.setEntryIno (h : s.Models a) (hdot : name ≠ dot) (hdotdot : name ≠ dotdot)
    (hi : s.inodes d = some i) {entry : ℕ × ℕ} (hentry : NamedBy i.dir.blocks name entry)
    (hrange : inode ≠ 0 ∧ inode < 2 ^ 64) :
    (s.modifyDir d fun dir => Dir.setEntryIno dir entry inode).Models
      (a.setEntry (d, name) (some inode)) := by
  refine h.setEntry fun j hj hjd => ?_
  obtain rfl : i = j := by simpa [hi] using hj
  exact (h.dir d i hi hjd).setEntryIno hdot hdotdot hentry hrange.1 hrange.2

@[simp] theorem set_self : (s.set ino i).inodes ino = some i := Function.update_self ..

theorem set_of_ne (hne : d ≠ ino) : (s.set ino i).inodes d = s.inodes d :=
  Function.update_of_ne hne ..

/-- A new inode, with one link. -/
theorem Models.set (h : s.Models a) (hlinks : i.links = ⟨1, 1⟩)
    (hdir : i.kind = .dir → Houses i.dir d fun n => a.entry (ino, n))
    (hrange : ino ≠ 0 ∧ ino < 2 ^ 64) : (s.set ino i).Models (a.newInode ino i.kind d) := by
  refine ⟨fun e => ?_, fun e j hj => ?_, fun e j hj he => ?_, fun e he => ?_⟩
  all_goals by_cases hei : e = ino
  all_goals try subst hei
  · rw [set_self, Tree.newInode_kind, Function.update_self, Option.map_some]
  · rw [set_of_ne hei, Tree.newInode_kind, Function.update_of_ne hei, h.kind]
  · rw [set_self] at hj
    cases hj
    rw [Tree.newInode_links, Function.update_self, hlinks]
  · rw [set_of_ne hei] at hj
    rw [Tree.newInode_links, Function.update_of_ne hei, h.links e j hj]
  · rw [set_self] at hj
    cases hj
    rw [Tree.newInode_parent, Function.update_self]
    exact hdir he
  · rw [set_of_ne hei] at hj
    rw [Tree.newInode_parent, Function.update_of_ne hei]
    exact h.dir e j hj he
  · exact hrange
  · rw [Tree.newInode_kind, Function.update_of_ne hei] at he
    exact h.range e he

theorem Models.evict (h : s.Models a) :
    (⟨Function.update s.inodes ino none⟩ : Fs).Models (a.evict ino) := by
  have hold : ∀ {e j}, Function.update s.inodes ino none e = some j → s.inodes e = some j := by
    intro e j hj
    rw [Function.update_apply] at hj
    split at hj
    · cases hj
    · exact hj
  refine ⟨fun e => ?_, fun e j hj => h.links e j (hold hj), fun e j hj => h.dir e j (hold hj),
    fun e he => ?_⟩
  · simp only [Tree.evict, Function.update_apply]
    split
    · rfl
    · exact h.kind e
  · simp only [Tree.evict, Function.update_apply] at he
    split at he
    · exact absurd rfl he
    · exact h.range e he

/-! ## What a caller sees -/

def kind (s : Fs) (ino : ℕ) : Option Kind := (s.inodes ino).map Inode.kind

/-- The inode that an entry names, other than `.` and `..`. -/
def entry (s : Fs) (p : Place) : Option ℕ :=
  if p.2 = dot ∨ p.2 = dotdot then none
  else
    match s.inodes p.1 with
    | none => none
    | some i =>
      if i.kind = .dir then
        match pmfsInodeByName i.dir.blocks.length i.dir p.2 with
        | none => none
        | some r => if r.iNo = 0 then none else some r.iNo
      else none

theorem Models.kind_eq (h : s.Models a) : s.kind = a.kind := funext h.kind

theorem Models.norm_of_entry (h : s.Models a) (hn : a.Names) (hp : a.entry p ≠ none) :
    p.2 ≠ dot ∧ p.2 ≠ dotdot := by
  obtain ⟨j, hj⟩ := Option.ne_none_iff_exists'.mp hp
  obtain ⟨i, hi, -, hkind, -⟩ := h.get (hn.holder p j hj).1
  obtain ⟨ess, hl⟩ := h.dir p.1 i hi hkind
  refine ⟨fun hdot => hp ?_, fun hdotdot => hp ?_⟩
  · have := hl.dot_free
    rwa [← hdot] at this
  · have := hl.dotdot_free
    rwa [← hdotdot] at this

theorem Models.entry_eq (h : s.Models a) (hn : a.Names) : s.entry = a.entry := by
  funext p
  by_cases hnorm : p.2 = dot ∨ p.2 = dotdot
  · rw [Fs.entry, if_pos hnorm]
    by_contra hne
    have := h.norm_of_entry hn (Ne.symm hne)
    tauto
  rw [Fs.entry, if_neg hnorm]
  rw [not_or] at hnorm
  by_cases hd : a.kind p.1 = some .dir
  · obtain ⟨i, hi, -, hkind, -⟩ := h.get hd
    obtain ⟨r, hr, hino, -⟩ := (h.dir p.1 i hi hkind).lookup hnorm.1 hnorm.2
    have hzero : a.entry p ≠ some 0 := fun hzero => (h.range 0 (hn.target _ _ hzero).1).1 rfl
    rw [hi]
    dsimp only
    rw [if_pos hkind, hr]
    dsimp only
    rw [hino]
    cases hp : a.entry p with
    | none => simp
    | some j =>
      rw [hp] at hzero
      have hj : j ≠ 0 := fun hj => hzero (congrArg some hj)
      simp [hj]
  · have hnone : a.entry p = none := by
      by_contra hne
      obtain ⟨j, hj⟩ := Option.ne_none_iff_exists'.mp hne
      exact hd (hn.holder p j hj).1
    rw [hnone]
    have hkind := h.kind p.1
    cases hi : s.inodes p.1 with
    | none => rfl
    | some i =>
      rw [hi, Option.map_some] at hkind
      have hne : i.kind ≠ .dir := fun hdir => hd (by rw [← hkind, hdir])
      dsimp only
      rw [if_neg hne]

end Fs

end Wpmfs.Namei
