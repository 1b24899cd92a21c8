import Wpmfs.Namei.Runs

/-!
# File systems that are reached

A run starts at the file system that `pmfs_init` leaves and makes calls that succeed. What holds of
the tree of the root directory and is kept by the calls on trees holds of every file system that is
reached.
-/

namespace Wpmfs.Namei

open Dir Fibers

namespace Op

variable {a b : Tree} {op : Op} {p : Place} {ino : ℕ}

/-- No directory is moved over another one. -/
def KeepsDirs (kind : ℕ → Option Kind) : Op → Prop
  | rename _ inode _ (some _) _ => kind inode ≠ some .dir
  | _ => True

/-- No directory is moved to another directory. -/
def KeepsParents (kind : ℕ → Option Kind) : Op → Prop
  | rename p inode q _ _ => kind inode = some .dir → p.1 = q.1
  | _ => True

theorem MayName.congr (hkind : a.kind = b.kind) (hentry : a.entry = b.entry)
    (h : MayName a p) : MayName b p := by
  obtain ⟨⟨hd, hroot⟩, hnorm, hfree⟩ := h
  rw [hkind] at hd
  rw [hentry] at hroot hfree
  exact ⟨⟨hd, hroot⟩, hnorm, hfree⟩

theorem FreeIno.congr (hkind : a.kind = b.kind) (h : FreeIno a ino) : FreeIno b ino :=
  ⟨hkind ▸ h.free, h.pos, h.lt⟩

/-- What a caller makes sure of depends on the kinds and the entries. -/
theorem Promised.congr (hkind : a.kind = b.kind) (hentry : a.entry = b.entry)
    (h : op.Promised a) : op.Promised b := by
  cases op with
  | create => exact ⟨h.1.congr hkind hentry, h.2.congr hkind⟩
  | mknod => exact ⟨h.1.congr hkind hentry, h.2.1.congr hkind, h.2.2⟩
  | symlink => exact ⟨h.1.congr hkind hentry, h.2.congr hkind⟩
  | link => exact ⟨h.1.congr hkind hentry, hkind ▸ h.2⟩
  | unlink => exact ⟨hentry ▸ h.1, hkind ▸ h.2⟩
  | mkdir => exact ⟨h.1.congr hkind hentry, h.2.congr hkind⟩
  | rmdir => exact ⟨hentry ▸ h.1, hkind ▸ h.2⟩
  | rename p inode q replaced =>
    obtain ⟨hp, ⟨hd, hroot⟩, hnorm, hq, hne, hkinds⟩ := h
    rw [hkind] at hd hkinds
    rw [hentry] at hp hroot hq
    exact ⟨hp, ⟨hd, hroot⟩, hnorm, hq, hne, hkinds⟩
  | evict => trivial

end Op

namespace Tree

variable {a : Tree} {op : Op} {slack : ℕ → ℕ}

/-- The root directory. -/
def init : Tree where
  kind := Function.update (fun _ => none) pmfsRootIno (some .dir)
  links _ := ⟨2, 2⟩
  entry _ := none
  parent _ := pmfsRootIno

theorem init_names : init.Names :=
  ⟨by simp [init], nofun, nofun, nofun⟩

theorem init_kind {i : ℕ} {k : Kind} (h : init.kind i = some k) : i = pmfsRootIno ∧ k = .dir := by
  simp only [init, Function.update_apply] at h
  split at h
  · cases h
    exact ⟨‹_›, rfl⟩
  · cases h

theorem init_counts : init.Counts 0 := by
  refine ⟨?_, fun i k hi hk => ?_, fun d _ => ?_, fun d hd hdead => ?_, fun i _ => ?_⟩
  · exact Set.finite_empty.subset fun p hp => hp rfl
  · exact absurd (init_kind hi).2 hk
  · have hsubs : init.subs d = 0 := by
      refine ncard_fiber_eq_zero fun p hp => ?_
      obtain ⟨-, i, hi, -⟩ := subdirs_eq_some.mp hp
      cases hi
    rw [hsubs]
    rfl
  · exact absurd ⟨hd, .inl (init_kind hd).1⟩ hdead
  · exact ⟨show 2 ≤ pmfsLinkMax by decide, rfl⟩

theorem Names.apply (h : a.Names) (hcounts : a.Counts slack) (hop : op.Promised a)
    (hguard : op.Guarded a) : (op.apply a).Names := by
  have hnew : ∀ {p : Place} {i k}, Op.MayName a p → Op.FreeIno a i →
      ((a.newInode i k p.1).setEntry p (some i)).Names := by
    intro p i k hp hi
    refine (h.newInode (k := k) (p := p) hi.free).bind ((live_newInode_iff h hi.free).mpr hp.live)
      hp.free ?_ ?_ fun _ q hq => (h.target q i hq).1 hi.free
    · rw [newInode_kind, Function.update_self]
      exact Option.some_ne_none k
    · rintro rfl
      have := hi.free
      rw [h.root] at this
      cases this
  cases op with
  | create p i => exact hnew hop.1 hop.2
  | mknod p k i => exact hnew hop.1 hop.2.1
  | symlink p len i => exact hnew hop.1 hop.2
  | link i p =>
    have hroot : i ≠ pmfsRootIno := by
      rintro rfl
      exact hop.2.2 h.root
    have hbind : (a.setEntry p (some i)).Names :=
      h.bind hop.1.live hop.1.free hop.2.1 hroot fun hd => absurd hd hop.2.2
    rw [Op.apply, link]
    exact hbind.modifyLinks
  | unlink p i => exact (h.unbind hop.1 fun hd => absurd hd hop.2).modifyLinks
  | mkdir p i =>
    have hbind : ((a.newInode i .dir p.1).setEntry p (some i)).Names := hnew hop.1 hop.2
    exact ⟨hbind.root, hbind.holder, hbind.target, hbind.once⟩
  | rmdir p i => exact (h.unbind hop.1 hguard).modifyLinks.modifyLinks
  | rename p i q =>
    obtain ⟨hp, hq, -, rfl, hne, hkinds⟩ := hop
    have hpq : p ≠ q := fun hpq => hne (hpq ▸ hp)
    refine (h.move hpq hp hq fun n hn => ⟨?_, fun hd => ?_⟩).renameCounts
    · rintro rfl
      exact hne hn
    · have hguard := hguard ((hkinds n hn).mp hd)
      rw [hn] at hguard
      exact hguard hd
  | evict i =>
    rw [Op.apply]
    split
    · rename_i hi
      obtain ⟨hno, hroot⟩ := hcounts.unnamed h hi.1 hi.2.1
      exact h.evict hno hroot
    · exact h

/-- The counts after a call. Only a directory that takes the place of another one adds slack. -/
theorem Counts.apply (h : a.Counts slack) (hn : a.Names) (hop : op.Promised a)
    (hguard : op.Guarded a) :
    ∃ slack', (op.apply a).Counts slack' ∧ (op.KeepsDirs a.kind → slack = 0 → slack' = 0) := by
  cases op with
  | create p i =>
    exact ⟨slack, h.create hn hop.2.free hop.1.free (by decide), fun _ hs => hs⟩
  | mknod p k i => exact ⟨slack, h.create hn hop.2.1.free hop.1.free hop.2.2, fun _ hs => hs⟩
  | symlink p len i =>
    exact ⟨slack, h.create hn hop.2.free hop.1.free (by decide), fun _ hs => hs⟩
  | link i p =>
    obtain ⟨k, hk⟩ := Option.ne_none_iff_exists'.mp hop.2.1
    have hdir : k ≠ .dir := by
      rintro rfl
      exact hop.2.2 hk
    exact ⟨slack, h.link hop.1.free hk hdir hguard, fun _ hs => hs⟩
  | unlink p i => exact ⟨slack, h.unlink hn hop.1 hop.2, fun _ hs => hs⟩
  | mkdir p i =>
    refine ⟨_, h.mkdir hn hop.2.free hop.1.free hop.1.live hguard, ?_⟩
    rintro - rfl
    exact Function.update_eq_self (f := (0 : ℕ → ℕ)) i
  | rmdir p i => exact ⟨slack, h.rmdir hn hop.1 hop.2 hguard, fun _ hs => hs⟩
  | rename p i q =>
    obtain ⟨hp, hq, -, rfl, hne, hkinds⟩ := hop
    have hpq : p ≠ q := fun hpq => hne (hpq ▸ hp)
    by_cases hi : a.kind i = some .dir
    · have hguard := hguard hi
      cases hn' : a.entry q with
      | none =>
        rw [hn'] at hguard
        exact ⟨slack, h.rename_dir hn hpq hp hi hn' hq hguard, fun _ hs => hs⟩
      | some n =>
        rw [hn'] at hguard hne
        have hni : n ≠ i := fun hni => hne (congrArg some hni)
        refine ⟨_, h.rename_over hn hpq hp hi hn' hni ((hkinds n hn').mpr hi) hguard, fun hk => ?_⟩
        rw [Op.KeepsDirs] at hk
        exact absurd hi hk
    · refine ⟨slack, h.rename_file hn hpq hp hi fun n hn' => ⟨?_, ?_⟩, fun _ hs => hs⟩
      · rintro rfl
        exact hne hn'
      · exact fun hd => hi ((hkinds n hn').mp hd)
  | evict i =>
    rw [Op.apply]
    split
    · rename_i hi
      exact ⟨slack, h.evict (h.unnamed hn hi.1 hi.2.1).1, fun _ hs => hs⟩
    · exact ⟨slack, h, fun _ hs => hs⟩

end Tree

/-! ## Runs -/

namespace Fs

variable {s s' : Fs} {a : Tree} {b : Block} {op : Op} {ops : List Op}
  {ok : (ℕ → Option Kind) → Op → Prop}

/-- The tree that a file system shows to who reads its inodes and looks up its names. -/
def tree (s : Fs) : Tree where
  kind := s.kind
  links ino := ((s.inodes ino).map Inode.links).getD ⟨0, 0⟩
  entry := s.entry
  parent ino :=
    match s.inodes ino with
    | none => 0
    | some i => ((pmfsGetParent i.dir.blocks.length i.dir).getD (.ok 0)).toOption.getD 0

/-- The calls are made as their callers may make them, they meet `ok`, and they succeed. -/
inductive Run (ok : (ℕ → Option Kind) → Op → Prop) : Fs → List Op → Fs → Prop
  | nil (s : Fs) : Run ok s [] s
  | cons {s s' t : Fs} {op : Op} {ops : List Op} (hop : op.Promised s.tree) (hok : ok s.kind op)
      (hexec : op.exec s = pure s') (hrun : Run ok s' ops t) : Run ok s (op :: ops) t

theorem models_init : (pmfsInit b).Models Tree.init := by
  have hino : ∀ {d i}, (pmfsInit b).inodes d = some i → d = pmfsRootIno ∧
      i = ⟨.dir, ⟨2, 2⟩, mkdirDir pmfsRootIno pmfsRootIno b⟩ := by
    intro d i hi
    simp only [pmfsInit, Function.update_apply] at hi
    split at hi
    · cases hi
      exact ⟨‹_›, rfl⟩
    · cases hi
  refine ⟨fun d => ?_, fun d i hi => ?_, fun d i hi _ => ?_, fun d hd => ?_⟩
  · simp only [pmfsInit, Tree.init, Function.update_apply]
    split <;> rfl
  · rw [(hino hi).2]
    rfl
  · rw [(hino hi).2]
    exact houses_mkdirDir (by decide) (by decide) (by decide) (by decide)
  · obtain ⟨k, hk⟩ := Option.ne_none_iff_exists'.mp hd
    rw [(Tree.init_kind hk).1]
    decide

theorem Models.tree_kind (h : s.Models a) : s.tree.kind = a.kind := h.kind_eq

theorem Models.tree_entry (h : s.Models a) (hn : a.Names) : s.tree.entry = a.entry := h.entry_eq hn

theorem Models.tree_live (h : s.Models a) (hn : a.Names) {d : ℕ} : s.tree.Live d ↔ a.Live d := by
  rw [Tree.Live, Tree.Live, h.tree_kind, h.tree_entry hn]

theorem Models.tree_names (h : s.Models a) (hn : a.Names) (i : ℕ) :
    s.tree.names i = a.names i := by
  rw [Tree.names, Tree.names, h.tree_entry hn]

theorem Models.tree_subs (h : s.Models a) (hn : a.Names) (d : ℕ) : s.tree.subs d = a.subs d := by
  have hsubdirs : s.tree.subdirs = a.subdirs := by
    funext p
    rw [Tree.subdirs, Tree.subdirs, h.tree_entry hn, Tree.dirOf, Tree.dirOf, h.tree_kind]
  rw [Tree.subs, Tree.subs, hsubdirs]

theorem Models.promised_iff (h : s.Models a) (hn : a.Names) :
    op.Promised s.tree ↔ op.Promised a :=
  ⟨.congr h.tree_kind (h.tree_entry hn), .congr h.tree_kind.symm (h.tree_entry hn).symm⟩

/-- A call that may be made succeeds if it passes its checks and finds free blocks. -/
theorem Models.progress (h : s.Models a) (hn : a.Names) (hop : op.Promised a)
    (hguard : op.Guarded a) (hsup : op.Supplied) :
    ∃ s', op.exec s = pure s' ∧ s'.Models (op.apply a) := by
  rcases h.exec hn hop with ⟨e, -, hno⟩ | ⟨s', hexec, -, hmodels⟩
  · exact absurd ⟨hguard, hsup⟩ hno
  · exact ⟨s', hexec, hmodels⟩

/-- Each call of the list may be made, meets `ok` and can succeed after those before it. -/
def Runnable (ok : (ℕ → Option Kind) → Op → Prop) (a : Tree) : List Op → Prop
  | [] => True
  | op :: ops => op.Promised a ∧ ok a.kind op ∧ op.Guarded a ∧ op.Supplied ∧
      Runnable ok (op.apply a) ops

theorem runnable_append {ops' : List Op} : Runnable ok a (ops ++ ops') ↔
    Runnable ok a ops ∧ Runnable ok (ops.foldl Op.apply a) ops' := by
  induction ops generalizing a with
  | nil => simp [Runnable]
  | cons op ops ih => simp only [List.cons_append, Runnable, ih, List.foldl_cons, and_assoc]

theorem Runnable.sound (hops : Runnable ok a ops) (hn : a.Names) {slack : ℕ → ℕ}
    (hcounts : a.Counts slack) :
    (ops.foldl Op.apply a).Names ∧ ∃ slack', (ops.foldl Op.apply a).Counts slack' := by
  induction ops generalizing a slack with
  | nil => exact ⟨hn, slack, hcounts⟩
  | cons op ops ih =>
    obtain ⟨hop, -, hguard, -, hops⟩ := hops
    obtain ⟨slack', hcounts', -⟩ := hcounts.apply hn hop hguard
    exact ih hops (hn.apply hcounts hop hguard) hcounts'

theorem Models.run (h : s.Models a) (hn : a.Names) {slack : ℕ → ℕ} (hcounts : a.Counts slack)
    (hops : Runnable ok a ops) : ∃ s', Run ok s ops s' ∧ s'.Models (ops.foldl Op.apply a) := by
  induction ops generalizing s a slack with
  | nil => exact ⟨s, .nil s, h⟩
  | cons op ops ih =>
    obtain ⟨hop, hok, hguard, hsup, hops⟩ := hops
    obtain ⟨s₁, hexec, h₁⟩ := h.progress hn hop hguard hsup
    obtain ⟨slack', hcounts', -⟩ := hcounts.apply hn hop hguard
    obtain ⟨s', hrun, hmodels⟩ := ih h₁ (hn.apply hcounts hop hguard) hcounts' hops
    exact ⟨s', .cons ((h.promised_iff hn).mpr hop) (h.kind_eq ▸ hok) hexec hrun, hmodels⟩

/-- A property of trees that the calls keep holds along every run. -/
theorem Run.models {P : Tree → Prop} (hrun : Run ok s ops s')
    (hstep : ∀ a op, a.Names → P a → op.Promised a → op.Guarded a → ok a.kind op →
      (op.apply a).Names ∧ P (op.apply a))
    (h : s.Models a) (hn : a.Names) (hp : P a) : ∃ a', s'.Models a' ∧ a'.Names ∧ P a' := by
  induction hrun generalizing a with
  | nil s => exact ⟨a, h, hn, hp⟩
  | cons hop hok hexec _ ih =>
    have hop := (h.promised_iff hn).mp hop
    rcases h.exec hn hop with ⟨e, hthrow, -⟩ | ⟨t, ht, hguard, hmodels⟩
    · rw [hthrow] at hexec
      cases hexec
    · rw [ht] at hexec
      cases hexec
      rw [h.kind_eq] at hok
      obtain ⟨hn', hp'⟩ := hstep a _ hn hp hop hguard hok
      exact ih hmodels hn' hp'

end Fs

end Wpmfs.Namei
