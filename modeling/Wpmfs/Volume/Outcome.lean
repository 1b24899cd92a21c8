import Wpmfs.Volume.Orphans

/-!
# All or nothing

A call that puts a name into a directory either fails and leaves what it found, or returns 0 and
the name is there. Only where `pmfs_create` and `pmfs_mknod` get no inode do they return 0 with
nothing done.
-/

namespace Wpmfs.Volume

open Bytes Dir Namei

variable {v v' : Volume} {a : Tree} {env : Env} {c : Call} {p : Place} {mode : ℕ} {r : Result}

/-- The directories, the link counts and the free slots are as they were. The inode table may have
grown, by free slots. -/
structure Unchanged (v v' : Volume) : Prop where
  contents : ∀ d, v.toFs.kind d = some .dir → (v'.cells d).contents = (v.cells d).contents
  iLinksCount : ∀ x, (v'.pi x).iLinksCount = (v.pi x).iLinksCount
  isFree : ∀ x, v.InTable x → ((v'.pi x).IsFree ↔ (v.pi x).IsFree)
  grown : ∀ x, v'.InTable x → ¬v.InTable x → (v'.pi x).IsFree

/-- The name is that of an inode with this mode that was not there before. -/
def NamesNew (v v' : Volume) (p : Place) (mode : ℕ) : Prop :=
  ∃ ino, v'.toFs.entry p = some ino ∧ (v.pi ino).IsFree ∧ ¬(v'.pi ino).IsFree ∧
    (v'.pi ino).iMode = mode

namespace Call

/-- The calls that put a name into a directory. -/
def Enters : Call → Prop
  | create .. | mknod .. | symlink .. | link .. | mkdir .. | rename .. => True
  | _ => False

/-- The new name is that of the inode that is meant. -/
def Resolves (v v' : Volume) : Call → Prop
  | create p mode => v.NamesNew v' p mode
  | mknod p mode => v.NamesNew v' p mode
  | symlink p _ => v.NamesNew v' p (sIflnk ||| sIrwxugo)
  | mkdir p mode => v.NamesNew v' p (sIfdir ||| mode)
  | link inode p => v'.toFs.entry p = some inode
  | rename _ inode q _ => v'.toFs.entry q = some inode
  | _ => True

/-- The call returns, and its result says whether it was done or nothing was. -/
def AllOrNothing (v : Volume) (env : Env) (c : Call) : Prop :=
  ∃ res v', c.exec v env = some (res, v') ∧ (res = .ok () → c.Resolves v v') ∧
    (res ≠ .ok () → v.Unchanged v')

/-- The transaction starts, but there is no inode for the file. -/
def LacksInode (env : Env) : Call → Prop
  | create _ _ | mknod _ _ => env.trans = .ok () ∧ ∀ ino grown, env.newInode ≠ .found ino grown
  | _ => False

end Call

theorem Kept.unchanged (h : v.Kept v') (hv : v.Inv a) : v.Unchanged v' := by
  refine ⟨fun d hd => ?_, fun x => by rw [h.pi], fun x _ => by rw [h.pi], fun x _ hx => ?_⟩
  · rw [hv.models.kind_eq] at hd
    have hpi : (v'.cells d).pi = (v.cells d).pi := h.pi d
    rw [Cell.contents, Cell.contents, hpi, h.data d (inUse_of_kind hv.models hd).1]
  · rw [h.pi, hv.sane.outside x hx]
    exact isFree_zeroSlot

/-- What a call comes to when it fails or is done. -/
def Settles (v : Volume) (r : Result) (resolves : Volume → Prop) : Prop :=
  ∃ res v', r = some (res, v') ∧ (res = .ok () → resolves v') ∧ (res ≠ .ok () → v.Unchanged v')

theorem Refused.settles (h : v.Refused r) (hv : v.Inv a) {resolves : Volume → Prop} :
    v.Settles r resolves := by
  obtain ⟨e, v', hr, hkept⟩ := h
  exact ⟨_, v', hr, nofun, fun _ => hkept.unchanged hv⟩

theorem Created.settles {after : ℕ → Tree} (h : v.Created r a mode after)
    (hentry : ∀ ino, (after ino).entry p = some ino) :
    v.Settles r fun v' => v.NamesNew v' p mode := by
  obtain ⟨ino, v', hr, hfree, hmode, hdone⟩ := h
  refine ⟨_, v', hr, fun _ => ⟨ino, ?_, hfree, fun hfree' => ?_, hmode⟩, fun hne => absurd rfl hne⟩
  · rw [hdone.inv.models.entry_eq hdone.inv.names, hentry]
  · exact (hdone.inv.names.target p ino (hentry ino)).1 (kind_of_free hdone.inv.models hfree')

theorem Done.settles {a' : Tree} {ino : ℕ} (h : v.Done v' a a') (hr : r = some (.ok (), v'))
    (hentry : a'.entry p = some ino) : v.Settles r fun v' => v'.toFs.entry p = some ino := by
  have hnew : v'.toFs.entry p = some ino := by rw [h.inv.models.entry_eq h.inv.names, hentry]
  exact ⟨_, v', hr, fun _ => hnew, fun hne => absurd rfl hne⟩

/-- Without an inode `pmfs_create` and `pmfs_mknod` return 0, and nothing is there. -/
theorem Inv.createNondir_lacking (h : v.Inv a) (mode : ℕ) (hp : v.MayName p)
    (hn : env.newInode.Promised v) (htrans : env.trans = .ok ())
    (hnone : ∀ ino grown, env.newInode ≠ .found ino grown) :
    ∃ v', v.createNondir p mode env = some (.ok (), v') ∧ v'.toFs.entry p = none := by
  rcases pmfsNewInode_spec mode h.sane hn with ⟨e, t, hnew, hundo, -⟩ | ⟨ino, grown, -, hfound, -⟩
  · refine ⟨abort t, ?_, ?_⟩
    · rw [Volume.createNondir, htrans, hnew]
    · have hinv := h.kept hundo.abort
      rw [hinv.models.entry_eq hinv.names]
      exact (h.mayName hp).free
  · exact absurd hfound (hnone ino grown)

theorem Inv.settles_createNondir (h : v.Inv a) (hp : v.MayName p) (hdir : kindOf mode ≠ .dir)
    (hmode : mode ≠ 0) (hn : env.newInode.Promised v) :
    v.Settles (v.createNondir p mode env) (fun v' => v.NamesNew v' p mode) ↔
      ¬(env.trans = .ok () ∧ ∀ ino grown, env.newInode ≠ .found ino grown) := by
  constructor
  · rintro ⟨res, v', hr, hresolves, -⟩ ⟨htrans, hnone⟩
    obtain ⟨w, hw, hentry⟩ := h.createNondir_lacking mode hp hn htrans hnone
    obtain ⟨rfl, rfl⟩ := Prod.mk.inj (Option.some.inj (hr.symm.trans hw))
    obtain ⟨ino, hino, -⟩ := hresolves rfl
    rw [hentry] at hino
    cases hino
  · intro hok
    rcases h.createNondir hp hdir hmode hn with hr | ⟨v', -, -, htrans, hnone⟩ | hr
    · exact hr.settles h
    · exact absurd ⟨htrans, hnone⟩ hok
    · exact hr.settles fun ino => by simp [Tree.create]

/-- The calls are all or nothing, and say which, except where a file gets no inode. -/
theorem Reached.allOrNothing_iff (h : Reached (fun _ _ _ => True) v) (hp : c.Promised v env)
    (hc : c.Enters) : c.AllOrNothing v env ↔ ¬c.LacksInode env := by
  obtain ⟨a, hinv⟩ := h.inv
  cases c with
  | create p mode =>
    obtain ⟨hname, hreg, hn⟩ := hp
    obtain ⟨hdir, hmode⟩ := kindOf_reg hreg
    exact hinv.settles_createNondir hname hdir hmode hn
  | mknod p mode => exact hinv.settles_createNondir hp.1 hp.2.1 hp.2.2.1 hp.2.2.2
  | symlink p len =>
    refine iff_of_true ?_ id
    rcases hinv.pmfsSymlink hp.1 hp.2 len with hr | hr
    · exact hr.settles hinv
    · exact hr.settles fun ino => by simp [Tree.create]
  | link inode p =>
    refine iff_of_true ?_ id
    rcases hinv.pmfsLink hp.1 hp.2.1 hp.2.2 with hr | ⟨v', hr, hdone⟩
    · exact hr.settles hinv
    · exact hdone.settles hr (by simp [Tree.link])
  | mkdir p mode =>
    refine iff_of_true ?_ id
    rcases hinv.pmfsMkdir hp.1 hp.2.1 hp.2.2 with hr | hr
    · exact hr.settles hinv
    · exact hr.settles fun ino => by simp [Tree.mkdir]
  | rename p inode q replaced =>
    refine iff_of_true ?_ id
    obtain ⟨hnamed, hlive, hmem, hnorm, rfl, hne, hkinds⟩ := hp
    rcases hinv.pmfsRename hnamed hlive hmem hnorm hne hkinds with hr | ⟨v', hr, hdone⟩
    · exact hr.settles hinv
    · refine hdone.settles hr ?_
      have hpq : q ≠ p := fun hqp => hne (hqp ▸ hnamed.entry)
      rw [Tree.rename, Tree.renameCounts_entry, Tree.move, Tree.setEntry_entry,
        Function.update_of_ne hpq, Tree.setEntry_entry, Function.update_self]
  | unlink => exact hc.elim
  | rmdir => exact hc.elim
  | evict => exact hc.elim
  | iget => exact hc.elim
  | setFlags => exact hc.elim

theorem allOrNothing_init : (Call.create place sIfreg).AllOrNothing (pmfsInit 1 0 fun _ => 0)
    plenty := by
  have hreached : Reached (fun _ _ _ => True) (pmfsInit 1 0 fun _ => 0) :=
    ⟨1, 0, fun _ => 0, Nat.one_pos, rfl, .refl⟩
  have hinv : (pmfsInit 1 0 fun _ => 0).Inv Tree.init := inv_pmfsInit _ Nat.one_pos rfl
  have hp : (Call.create place sIfreg).Promised (pmfsInit 1 0 fun _ => 0) plenty :=
    ⟨mayName_init hinv, rfl, found_init, rfl⟩
  exact (hreached.allOrNothing_iff hp trivial).mpr fun h => h.2 384 false rfl

/-- No inode is left. -/
def exhausted : Env := { plenty with newInode := .none ⟨-28, by decide⟩ }

/-- `pmfs_create` returns 0 when no inode is left. -/
theorem not_allOrNothing_exhausted : ¬(Call.create place sIfreg).AllOrNothing
    (pmfsInit 1 0 fun _ => 0) exhausted := by
  have hinv : (pmfsInit 1 0 fun _ => 0).Inv Tree.init := inv_pmfsInit _ Nat.one_pos rfl
  have hnew : exhausted.newInode.Promised (pmfsInit 1 0 fun _ => 0) := trivial
  have hregular : kindOf sIfreg ≠ .dir ∧ sIfreg ≠ 0 := by decide
  intro hall
  exact (hinv.settles_createNondir (mayName_init hinv) hregular.1 hregular.2 hnew).mp hall
    ⟨rfl, nofun⟩

end Wpmfs.Volume
