import Wpmfs.Namei.Nlink

/-!
# Parents of directories

`..` of a directory is written when the directory is made. `pmfs_rename` does not write it, so it
names the parent as long as no directory is moved to another directory.
-/

namespace Wpmfs.Namei

open Dir

namespace Tree

variable {a : Tree} {op : Op} {p q : Place} {i : ℕ} {k : Kind}

/-- `..` of each directory is the directory that an entry names it in. -/
def Parents (a : Tree) : Prop :=
  ∀ p d, a.entry p = some d → a.kind d = some .dir → a.parent d = p.1

/-- A new inode is entered in the directory that its `..` names. -/
theorem Parents.newEntry (h : a.Parents) (hn : a.Names) (hi : a.kind i = none) :
    ((a.newInode i k p.1).setEntry p (some i)).Parents := by
  intro q d hq hd
  rw [setEntry_parent, newInode_parent, Function.update_apply]
  rw [setEntry_entry, newInode_entry, Function.update_apply] at hq
  split at hq
  · cases hq
    rw [if_pos rfl, ‹q = p›]
  · have hdi : d ≠ i := fun hdi => (hn.target q d hq).1 (hdi ▸ hi)
    rw [setEntry_kind, newInode_kind, Function.update_of_ne hdi] at hd
    rw [if_neg hdi]
    exact h q d hq hd

theorem Parents.unbind (h : a.Parents) : (a.setEntry p none).Parents := by
  intro q d hq hd
  rw [setEntry_entry, Function.update_apply] at hq
  split at hq
  · cases hq
  · exact h q d hq hd

/-- An entry may name a file, or a directory with the right `..`. -/
theorem Parents.bind (h : a.Parents) (hi : a.kind i = some .dir → a.parent i = p.1) :
    (a.setEntry p (some i)).Parents := by
  intro q d hq hd
  rw [setEntry_entry, Function.update_apply] at hq
  split at hq
  · cases hq
    rw [‹q = p›]
    exact hi hd
  · exact h q d hq hd

theorem Parents.evict (h : a.Parents) : (a.evict i).Parents := by
  intro q d hq hd
  simp only [Tree.evict, Function.update_apply] at hd
  split at hd
  · cases hd
  · exact h q d hq hd

theorem Parents.apply (h : a.Parents) (hn : a.Names) (hop : op.Promised a)
    (hok : op.KeepsParents a.kind) : (op.apply a).Parents := by
  cases op with
  | create p i => exact h.newEntry hn hop.2.free
  | mknod p k i => exact h.newEntry hn hop.2.1.free
  | symlink p len i => exact h.newEntry hn hop.2.free
  | link i p => exact h.bind fun hi => absurd hi hop.2.2
  | unlink p i => exact h.unbind
  | mkdir p i => exact h.newEntry (k := .dir) hn hop.2.free
  | rmdir p i => exact h.unbind
  | rename p i q =>
    have hmove : (a.move p q i).Parents :=
      (h.bind fun hi => (h p i hop.1 hi).trans (hok hi)).unbind
    intro r d hr hd
    rw [Op.apply, Tree.rename, renameCounts_entry] at hr
    rw [Op.apply, Tree.rename, renameCounts_kind] at hd
    rw [Op.apply, Tree.rename, renameCounts_parent]
    exact hmove r d hr hd
  | evict i =>
    rw [Op.apply]
    split
    · exact h.evict
    · exact h

end Tree

namespace Fs

variable {s : Fs} {a : Tree} {b : Block} {ops : List Op}

/-- `pmfs_get_parent` finds the directory that holds a directory. -/
def FindsParents (s : Fs) : Prop :=
  ∀ p d i, s.entry p = some d → s.inodes d = some i → i.kind = .dir →
    pmfsGetParent i.dir.blocks.length i.dir = some (.ok p.1)

theorem Models.findsParents_iff (h : s.Models a) (hn : a.Names) :
    s.FindsParents ↔ a.Parents := by
  constructor
  · intro hfinds p d hp hd
    obtain ⟨i, hi, -, hkind, -⟩ := h.get hd
    have hshown := hfinds p d i (by rwa [h.entry_eq hn]) hi hkind
    rw [(h.dir d i hi hkind).getParent] at hshown
    simpa using hshown
  · intro hparents p d i hp hi hkind
    rw [h.entry_eq hn] at hp
    rw [(h.dir d i hi hkind).getParent, hparents p d hp]
    rw [← h.kind, hi, Option.map_some, hkind]

/-- `pmfs_get_parent` finds the parents after every run of calls that move no directory to another
directory. -/
theorem Run.findsParents (hrun : Run Op.KeepsParents (pmfsInit b) ops s) : s.FindsParents := by
  have hstep : ∀ (a : Tree) (op : Op), a.Names → ((∃ slack, a.Counts slack) ∧ a.Parents) →
      op.Promised a → op.Guarded a → op.KeepsParents a.kind →
      (op.apply a).Names ∧ (∃ slack, (op.apply a).Counts slack) ∧ (op.apply a).Parents := by
    rintro a op hn ⟨⟨slack, hcounts⟩, hparents⟩ hop hguard hok
    obtain ⟨slack', hcounts', -⟩ := hcounts.apply hn hop hguard
    exact ⟨hn.apply hcounts hop hguard, ⟨slack', hcounts'⟩, hparents.apply hn hop hok⟩
  obtain ⟨a, hmodels, hn, -, hparents⟩ :=
    hrun.models hstep models_init Tree.init_names ⟨⟨0, Tree.init_counts⟩, nofun⟩
  exact (hmodels.findsParents_iff hn).mpr hparents

/-- The call `rename a c` in the root directory. -/
def moveBeside : Op :=
  .rename (pmfsRootIno, [0x61]) 384 (pmfsRootIno, [0x63]) none (.ok fun _ => 0)

theorem moveBeside_runnable :
    Runnable Op.KeepsParents (mkdirs.foldl Op.apply Tree.init) [moveBeside] := by
  refine ⟨⟨?_, ⟨?_, .inl rfl⟩, normName_letter (by decide), ?_, nofun, nofun⟩, fun _ => rfl, ?_,
    ⟨_, rfl⟩, trivial⟩
  all_goals simp [mkdirs, moveBeside, Op.apply, Tree.mkdir, Tree.init, Op.Guarded, pmfsRootIno,
    Tree.nlink, Op.MayReplace, pmfsLinkMax, Links.pmfsIncCount, Links.incNlink,
    Links.pmfsUpdateNlink]

/-- A run that gives a directory another name. -/
theorem findsParents_moveBeside : ∃ s,
    Run Op.KeepsParents (pmfsInit fun _ => 0) (mkdirs ++ [moveBeside]) s ∧ s.FindsParents := by
  have hmkdirs : Runnable Op.KeepsParents Tree.init mkdirs :=
    mkdirs_runnable fun _ _ _ _ _ => trivial
  obtain ⟨s, hrun, -⟩ := models_init.run Tree.init_names Tree.init_counts <|
    runnable_append.mpr ⟨hmkdirs, moveBeside_runnable⟩
  exact ⟨s, hrun, hrun.findsParents⟩

/-- `..` of the directory `a` names the root directory also after it was moved into `b`. -/
theorem not_findsParents_moveInto : ∃ s,
    Run (fun _ _ => True) (pmfsInit fun _ => 0) (mkdirs ++ [moveInto]) s ∧ ¬s.FindsParents := by
  have hmkdirs : Runnable (fun _ _ => True) Tree.init mkdirs :=
    mkdirs_runnable fun _ _ _ _ _ => trivial
  have hmove : Runnable (fun _ _ => True) (mkdirs.foldl Op.apply Tree.init) [moveInto] :=
    moveInto_runnable trivial
  obtain ⟨s, hrun, hmodels⟩ := models_init.run Tree.init_names Tree.init_counts <|
    runnable_append.mpr ⟨hmkdirs, hmove⟩
  obtain ⟨hn, slack, hcounts⟩ := hmkdirs.sound Tree.init_names Tree.init_counts
  obtain ⟨hn', -⟩ := hmove.sound hn hcounts
  rw [List.foldl_append] at hmodels
  refine ⟨s, hrun, fun hfinds => ?_⟩
  have hparent := (hmodels.findsParents_iff hn').mp hfinds (512, [0x61]) 384
    (by simp [moveInto, Op.apply, Tree.rename, Tree.renameCounts_entry, pmfsRootIno])
    (by simp [mkdirs, moveInto, Op.apply, Tree.rename, Tree.renameCounts_kind, Tree.move,
      Tree.mkdir])
  simp [mkdirs, moveInto, Op.apply, Tree.rename, Tree.renameCounts_parent, Tree.move, Tree.mkdir,
    pmfsRootIno] at hparent

end Fs

end Wpmfs.Namei
