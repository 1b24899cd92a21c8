import Wpmfs.Namei.Reached

/-!
# Link counts over runs

In every run that never moves a directory over another one, the link counts are exact. When
`pmfs_rename` moves a directory over another one, it takes the links of the replaced directory and
leaves the count of the old parent as it was, although that has lost a subdirectory.
-/

namespace Wpmfs.Namei

open Dir

namespace Fs

variable {s s' : Fs} {a : Tree} {b : Block} {ops : List Op}

/-- A file has a link for each of its names, a directory 2 and one for each of its subdirectories,
and a directory that was removed none. Both counts of an inode agree. -/
structure ExactLinks (s : Fs) : Prop where
  file : ∀ ino i, s.inodes ino = some i → i.kind ≠ .dir → i.links.iNlink = s.tree.names ino
  dir : ∀ ino i, s.inodes ino = some i → i.kind = .dir → s.tree.Live ino →
    i.links.iNlink = 2 + s.tree.subs ino
  removed : ∀ ino i, s.inodes ino = some i → i.kind = .dir → ¬s.tree.Live ino →
    i.links.iNlink = 0
  synced : ∀ ino i, s.inodes ino = some i → i.links.iLinksCount = i.links.iNlink

theorem Models.counted (h : s.Models a) (hn : a.Names) (hcounts : a.Counts 0) :
    s.ExactLinks := by
  have hkind : ∀ {ino i}, s.inodes ino = some i → a.kind ino = some i.kind := by
    intro ino i hi
    rw [← h.kind, hi, Option.map_some]
  refine ⟨fun ino i hi hd => ?_, fun ino i hi hd hl => ?_, fun ino i hi hd hl => ?_,
    fun ino i hi => ?_⟩
  all_goals have hk := hkind hi
  all_goals rw [h.links ino i hi]
  · rw [h.tree_names hn]
    exact hcounts.file ino _ hk hd
  · rw [h.tree_subs hn]
    exact hcounts.live ino ((h.tree_live hn).mp hl)
  · rw [hd] at hk
    exact Nat.le_zero.mp (hcounts.dead ino hk fun hl' => hl ((h.tree_live hn).mpr hl'))
  · exact (hcounts.ok ino (by simp [hk])).synced

/-- A directory with slack counts too much. -/
theorem Models.not_exactLinks (h : s.Models a) (hn : a.Names) {slack : ℕ → ℕ} {d : ℕ}
    (hcounts : a.Counts slack) (hd : a.Live d) (hslack : 0 < slack d) : ¬s.ExactLinks := by
  intro hexact
  obtain ⟨i, hi, -, hkind, hlinks⟩ := h.get hd.1
  have hshown := hexact.dir d i hi hkind ((h.tree_live hn).mpr hd)
  have hcount := hcounts.live d hd
  rw [h.tree_subs hn, hlinks, ← Tree.nlink] at hshown
  omega

/-- The link counts are exact after every run of calls that move no directory over another. -/
theorem Run.exactLinks (hrun : Run Op.KeepsDirs (pmfsInit b) ops s) : s.ExactLinks := by
  have hstep : ∀ (a : Tree) (op : Op), a.Names → a.Counts 0 → op.Promised a → op.Guarded a →
      op.KeepsDirs a.kind → (op.apply a).Names ∧ (op.apply a).Counts 0 := by
    intro a op hn hcounts hop hguard hok
    obtain ⟨slack, hcounts', hslack⟩ := hcounts.apply hn hop hguard
    obtain rfl := hslack hok rfl
    exact ⟨hn.apply hcounts hop hguard, hcounts'⟩
  obtain ⟨a, hmodels, hn, hcounts⟩ :=
    hrun.models hstep models_init Tree.init_names Tree.init_counts
  exact hmodels.counted hn hcounts

/-- The calls `mkdir a` and `mkdir b`. -/
def mkdirs : List Op :=
  [.mkdir (pmfsRootIno, [0x61]) 384 (.ok fun _ => 0) (.ok fun _ => 0),
    .mkdir (pmfsRootIno, [0x62]) 512 (.ok fun _ => 0) (.ok fun _ => 0)]

/-- The call `rename a b/a`. -/
def moveInto : Op := .rename (pmfsRootIno, [0x61]) 384 (512, [0x61]) none (.ok fun _ => 0)

/-- The call `rename a b`. -/
def moveOver : Op :=
  .rename (pmfsRootIno, [0x61]) 384 (pmfsRootIno, [0x62]) (some 512) (.ok fun _ => 0)

theorem normName_letter {c : UInt8} (hc : c ≠ 0x2e) : NormName [c] :=
  ⟨List.cons_ne_nil _ _, show 1 ≤ pmfsNameLen by decide, by simpa [dot], by simp [dotdot]⟩

theorem mkdirs_runnable {ok : (ℕ → Option Kind) → Op → Prop}
    (hok : ∀ kind p ino fresh alloc, ok kind (.mkdir p ino fresh alloc)) :
    Runnable ok Tree.init mkdirs := by
  refine ⟨⟨⟨⟨?_, .inl rfl⟩, normName_letter (by decide), ?_⟩, ?_, by decide, by decide⟩,
    hok _ _ _ _ _, ?_, ⟨⟨_, rfl⟩, _, rfl⟩, ⟨⟨⟨?_, .inl rfl⟩, normName_letter (by decide), ?_⟩, ?_,
    by decide, by decide⟩, hok _ _ _ _ _, ?_, ⟨⟨_, rfl⟩, _, rfl⟩, trivial⟩
  all_goals simp [Op.apply, Tree.mkdir, Tree.init, Op.Guarded, pmfsRootIno, Tree.nlink,
    pmfsLinkMax, Links.pmfsIncCount, Links.incNlink, Links.pmfsUpdateNlink]

theorem moveInto_runnable {ok : (ℕ → Option Kind) → Op → Prop}
    (hok : ok (mkdirs.foldl Op.apply Tree.init).kind moveInto) :
    Runnable ok (mkdirs.foldl Op.apply Tree.init) [moveInto] := by
  refine ⟨⟨?_, ⟨?_, .inr ⟨(pmfsRootIno, [0x62]), ?_⟩⟩, normName_letter (by decide), ?_, nofun,
    nofun⟩, hok, ?_, ⟨_, rfl⟩, trivial⟩
  all_goals simp [mkdirs, moveInto, Op.apply, Tree.mkdir, Tree.init, Op.Guarded, pmfsRootIno,
    Tree.nlink, Op.MayReplace, pmfsLinkMax, Links.setNlink, Links.pmfsUpdateNlink]

theorem moveOver_runnable :
    Runnable (fun _ _ => True) (mkdirs.foldl Op.apply Tree.init) [moveOver] := by
  refine ⟨⟨?_, ⟨?_, .inl rfl⟩, normName_letter (by decide), ?_, by decide, ?_⟩, trivial, ?_,
    ⟨_, rfl⟩, trivial⟩
  all_goals simp [mkdirs, moveOver, Op.apply, Tree.mkdir, Tree.init, Op.Guarded, pmfsRootIno,
    Op.MayReplace, Tree.Vacant]

/-- A run that moves a directory into another one. -/
theorem exactLinks_moveInto : ∃ s, Run Op.KeepsDirs (pmfsInit fun _ => 0) (mkdirs ++ [moveInto]) s ∧
    s.ExactLinks := by
  have hmkdirs : Runnable Op.KeepsDirs Tree.init mkdirs :=
    mkdirs_runnable fun _ _ _ _ _ => trivial
  obtain ⟨s, hrun, -⟩ := models_init.run Tree.init_names Tree.init_counts <|
    runnable_append.mpr ⟨hmkdirs, moveInto_runnable trivial⟩
  exact ⟨s, hrun, hrun.exactLinks⟩

/-- The root directory counts the directory `a` also after it took the place of `b`. -/
theorem not_exactLinks_moveOver : ∃ s,
    Run (fun _ _ => True) (pmfsInit fun _ => 0) (mkdirs ++ [moveOver]) s ∧ ¬s.ExactLinks := by
  have hmkdirs : Runnable (fun _ _ => True) Tree.init mkdirs :=
    mkdirs_runnable fun _ _ _ _ _ => trivial
  obtain ⟨s, hrun, hmodels⟩ := models_init.run Tree.init_names Tree.init_counts <|
    runnable_append.mpr ⟨hmkdirs, moveOver_runnable⟩
  obtain ⟨hn, slack, hcounts⟩ := hmkdirs.sound Tree.init_names Tree.init_counts
  obtain ⟨hn', -⟩ := moveOver_runnable.sound hn hcounts
  obtain ⟨⟨hp, -, -, hq, -⟩, -, hguard, -⟩ := moveOver_runnable
  have hdirs : ∀ d ∈ [384, 512], (mkdirs.foldl Op.apply Tree.init).kind d = some .dir := by
    simp [mkdirs, Op.apply, Tree.mkdir]
  have hover := hcounts.rename_over hn (by decide) hp (hdirs 384 (by simp)) hq.symm (by decide)
    (hdirs 512 (by simp)) (hguard (hdirs 384 (by simp)))
  rw [List.foldl_append] at hmodels
  refine ⟨s, hrun, hmodels.not_exactLinks hn' hover ⟨hn'.root, .inl rfl⟩ ?_⟩
  rw [Function.update_self]
  exact Nat.succ_pos _

end Fs

end Wpmfs.Namei
