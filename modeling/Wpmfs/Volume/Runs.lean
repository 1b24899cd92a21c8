import Mathlib.Algebra.Order.Ring.Int
import Mathlib.Algebra.Order.Ring.Nat
import Mathlib.Logic.Relation
import Wpmfs.Volume.Removals

/-!
# Volumes that are reached

Inodes are read, get flags and are evicted between the calls on names. A run starts at the volume
that `pmfs_init` leaves, and its calls may fail.
-/

namespace Wpmfs.Volume

open Bytes Dir Namei
open Wpmfs.Inode (PmfsInode Truncates inodesPerBlock)

variable {v v' : Volume} {a : Tree} {x y ino : ℕ} {env : Env} {c : Cell} {g : Cell → Cell}

/-! ## Evictions -/

/-- The eviction of an inode that has no links frees its slot. -/
structure FreesInode (env : Env) (m : VfsInode) : Prop where
  kind : kindOf m.iMode ≠ .special
  append : m.append = false
  immutable : m.immutable = false
  free : env.free = .ok ()

theorem evictFrees_of_nlink {m : VfsInode} (hm : c.inode = some m) (hlinks : m.iNlink ≠ 0) :
    evictFrees env c = c := by
  rw [evictFrees, hm]
  exact if_pos hlinks

theorem evictFrees_of_frees {m : VfsInode} (hm : c.inode = some m) (hlinks : m.iNlink = 0)
    (hfrees : FreesInode env m) : evictFrees env c = pmfsFreeInode env.seconds c := by
  simp [evictFrees, hm, hlinks, hfrees.kind, hfrees.append, hfrees.immutable, hfrees.free]

theorem evictFrees_of_not_frees {m : VfsInode} (hm : c.inode = some m)
    (hfrees : ¬FreesInode env m) : evictFrees env c = c := by
  rw [evictFrees, hm]
  dsimp only
  split_ifs with hlinks hkind hflags
  · rfl
  · rfl
  · rfl
  · rw [not_or, Bool.not_eq_true, Bool.not_eq_true] at hflags
    cases hfree : env.free with
    | error e => rfl
    | ok _ => exact absurd ⟨hkind, hflags.1, hflags.2, hfree⟩ hfrees

/-- The truncate list does not depend on what is in the inodes. -/
theorem pmfsTruncateDel_modify :
    (v.modify x g).pmfsTruncateDel y = (v.pmfsTruncateDel y).modify x g := by
  have hexec : ∀ s s' : Truncates, s.iNo = s'.iNo → s.sTruncate = s'.sTruncate →
      s.iNextTruncate = s'.iNextTruncate → s.iTruncatesize = s'.iTruncatesize →
      s.head = s'.head →
      v.setTruncates ((Truncates.pmfsTruncateDel y).exec s).1 =
        v.setTruncates ((Truncates.pmfsTruncateDel y).exec s').1 := by
    rintro ⟨no, phase, used, l, next, size, head⟩ ⟨_, phase', used', _, _, _, _⟩ rfl rfl rfl rfl rfl
    simp only [Truncates.pmfsTruncateDel, Persist.Prog.exec]
    split
    · cases Truncates.prev l y <;> rfl
    · rfl
  have hsame := hexec (v.modify x g).truncates v.truncates rfl rfl rfl rfl rfl
  exact congrArg (fun w : Volume => w.modify x g) hsame

theorem pmfsEvictInode_eq : v.pmfsEvictInode ino env =
    (v.pmfsTruncateDel ino).modify ino fun c => { evictFrees env c with inode := none } := by
  rw [pmfsEvictInode, pmfsTruncateDel_modify, modify_modify]
  rfl

theorem pi_evict_self : (v.pmfsEvictInode ino env).pi ino = (evictFrees env (v.cells ino)).pi := by
  rw [pmfsEvictInode_eq, Volume.pi, modify_self]
  rfl

theorem Sane.sTruncate_evict (h : v.Sane) (hx : x ∈ v.sTruncate) (hne : x ≠ ino) :
    x ∈ (v.pmfsEvictInode ino env).sTruncate := by
  rw [pmfsEvictInode_eq]
  change x ∈ (v.pmfsTruncateDel ino).sTruncate
  rw [h.pmfsTruncateDel.2]
  exact (List.mem_erase_of_ne hne).mpr hx

theorem Sane.evict (h : v.Sane) (hm : v.inode ino ≠ none)
    (hok : Cell.Ok { evictFrees env (v.cells ino) with inode := none }) :
    (v.pmfsEvictInode ino env).Sane := by
  obtain ⟨hchain, hlist⟩ := h.pmfsTruncateDel (x := ino)
  have hused := (h.ok ino).inUse hm
  rw [pmfsEvictInode_eq]
  refine h.set (x := ino) (fun y hy => modify_of_ne hy) ?_ (h.pos ino hused) (h.inTable hused)
    le_rfl hchain fun y hy => ?_
  · rw [modify_self]
    exact hok
  · have hy : y ∈ (v.pmfsTruncateDel ino).sTruncate := hy
    rw [hlist, h.chain.nodup.mem_erase_iff] at hy
    rw [if_neg hy.1]
    exact hy.2

/-- The slot that an eviction frees looks free to `pmfs_new_inode`. -/
theorem isFree_pmfsFreeInode {seconds : ℕ} (hlinks : c.pi.iLinksCount = 0) (hs : seconds ≠ 0) :
    (pmfsFreeInode seconds c).pi.IsFree := ⟨hlinks, .inr hs⟩

theorem Inv.evict_freed (h : v.Inv a) {m : VfsInode} (hm : v.inode ino = some m)
    (hlinks : m.iNlink = 0) (hfrees : FreesInode env m) (hs : env.seconds ≠ 0) :
    (v.pmfsEvictInode ino env).Inv (a.evict ino) ∧ ((v.pmfsEvictInode ino env).pi ino).IsFree := by
  have hin : v.inode ino ≠ none := by simp [hm]
  obtain ⟨hused, hsync⟩ := (h.sane.ok ino).cached m hm
  obtain ⟨hkind, hcount⟩ := kind_of_inUse h.models hused
  obtain ⟨slack, hcounts⟩ := h.counts
  have hmem : (v.cells ino).links.iNlink = 0 := by
    have hcell : (v.cells ino).inode = some m := hm
    simp [Cell.links, hcell, hlinks]
  have hzero : a.nlink ino = 0 := by rw [Tree.nlink, hcount, hmem]
  have hslot : (v.cells ino).pi.iLinksCount = 0 := by
    have hsynced := (hcounts.ok ino (by simp [hkind])).synced
    rw [hcount, hmem] at hsynced
    exact hsynced
  have hfree : ((v.pmfsEvictInode ino env).pi ino).IsFree := by
    rw [pi_evict_self, evictFrees_of_frees hm hlinks hfrees]
    exact isFree_pmfsFreeInode hslot hs
  have hmodels : (v.pmfsEvictInode ino env).toFs.Models (a.evict ino) := by
    have hfs : (v.pmfsEvictInode ino env).toFs = ⟨Function.update v.toFs.inodes ino none⟩ := by
      refine congrArg Fs.mk (funext fun y => ?_)
      change ((v.pmfsEvictInode ino env).cells y).view y = _
      by_cases hy : y = ino
      · rw [hy, Function.update_self]
        exact Cell.view_of_free hfree
      · rw [Function.update_of_ne hy, pmfsEvictInode_eq, modify_of_ne hy]
        rfl
    rw [hfs]
    exact h.models.evict
  obtain ⟨hno, hroot⟩ := hcounts.unnamed h.names (by simp [hkind]) hzero
  refine ⟨⟨hmodels, h.names.evict hno hroot, ⟨slack, hcounts.evict hno⟩, h.sane.evict hin ?_⟩,
    hfree⟩
  have hpi : (evictFrees env (v.cells ino)).pi.IsFree := pi_evict_self (v := v) ▸ hfree
  exact ⟨fun hused => absurd hpi hused, by simp⟩

/-- An inode that leaves memory looks the same but for the hint. -/
theorem view_uncached (hok : c.Ok) (hused : ¬c.pi.IsFree) (hsynced : c.links.Ok) :
    Cell.view x { c with inode := none } = (c.view x).map fun i =>
      { i with dir := { i.dir with startLookup := 0 } } := by
  rw [Cell.view_of_inUse hused, Cell.view_of_inUse (c := { c with inode := none }) hused]
  cases hm : c.inode with
  | none => simp [Cell.links, Cell.dirInode, hm]
  | some m =>
    have hsize : m.iSize = c.pi.iSize := by rw [(hok.cached m hm).2]
    have hsynced := hsynced.synced
    simp only [Cell.links, hm] at hsynced
    simp [Cell.links, Cell.dirInode, hm, hsize, hsynced]

/-- Where an eviction does not free the slot, the inode only leaves memory. -/
theorem Inv.evict_kept (h : v.Inv a) (hm : v.inode ino ≠ none)
    (hkept : evictFrees env (v.cells ino) = v.cells ino) :
    (v.pmfsEvictInode ino env).Inv a := by
  have hused := (h.sane.ok ino).inUse hm
  obtain ⟨hkind, hcount⟩ := kind_of_inUse h.models hused
  obtain ⟨slack, hcounts⟩ := h.counts
  have hsynced : (v.cells ino).links.Ok := hcount ▸ hcounts.ok ino (by simp [hkind])
  refine ⟨models_of_view h.models fun y => ?_, h.names, h.counts, h.sane.evict hm ?_⟩
  · by_cases hy : y = ino
    · refine ⟨0, ?_⟩
      rw [hy, pmfsEvictInode_eq, modify_self]
      change Cell.view ino { evictFrees env (v.cells ino) with inode := none } = _
      rw [hkept]
      exact view_uncached (h.sane.ok ino) hused hsynced
    · refine ⟨((v.cells y).dirInode y).startLookup, ?_⟩
      rw [pmfsEvictInode_eq, modify_of_ne hy]
      change (v.cells y).view y = _
      rw [Cell.view]
      split <;> rfl
  · rw [hkept]
    exact ⟨(h.sane.ok ino).used, by simp⟩

/-! ## Inodes are read, and get flags -/

/-- A change of one cell that does not show in its view. -/
theorem Inv.modify_view (h : v.Inv a) (hview : (g (v.cells x)).view x = (v.cells x).view x)
    (hsane : (v.modify x g).Sane) : (v.modify x g).Inv a := by
  refine ⟨?_, h.names, h.counts, hsane⟩
  have hfs : (v.modify x g).toFs = v.toFs := by
    refine congrArg Fs.mk (funext fun y => ?_)
    change ((v.modify x g).cells y).view y = (v.cells y).view y
    by_cases hy : y = x
    · rw [hy, modify_self, hview]
    · rw [modify_of_ne hy]
  rw [hfs]
  exact h.models

theorem modify_eq_self (h : g (v.cells x) = v.cells x) : v.modify x g = v := by
  rw [Volume.modify, h, Function.update_eq_self]

/-- The calls that leave the tree and the truncate list as they are. -/
structure Same (v v' : Volume) (a : Tree) : Prop where
  inv : v'.Inv a
  iLinksCount : ∀ x, (v'.pi x).iLinksCount = (v.pi x).iLinksCount
  iMode : ∀ x, (v'.pi x).iMode = (v.pi x).iMode
  isFree : ∀ x, (v'.pi x).IsFree ↔ (v.pi x).IsFree
  sTruncate : v'.sTruncate = v.sTruncate

theorem Inv.same_of_kept (h : v.Inv a) (hv : v.Kept v') : v.Same v' a :=
  ⟨h.kept hv, fun x => by rw [hv.pi], fun x => by rw [hv.pi], fun x => by rw [hv.pi], hv.sTruncate⟩

theorem Inv.same_of_modify (h : v.Inv a) (hsane : (v.modify x g).Sane)
    (hview : (g (v.cells x)).view x = (v.cells x).view x)
    (hpi : (g (v.cells x)).pi.toPmfsInode = (v.cells x).pi.toPmfsInode) :
    v.Same (v.modify x g) a := by
  have hslot : ∀ y, ((v.modify x g).pi y).toPmfsInode = (v.pi y).toPmfsInode := by
    intro y
    by_cases hy : y = x
    · rw [hy, Volume.pi, modify_self, hpi]
      rfl
    · rw [Volume.pi, modify_of_ne hy]
      rfl
  refine ⟨h.modify_view hview hsane, fun y => ?_, fun y => ?_, fun y => ?_, rfl⟩
  all_goals rw [hslot y]

theorem Inv.pmfsIget (h : v.Inv a) (ino : ℕ) : v.Same (v.pmfsIget ino) a := by
  rw [Volume.pmfsIget]
  cases hm : (v.cells ino).inode with
  | some m =>
    rw [modify_eq_self (by rw [hm])]
    exact h.same_of_kept (.refl v)
  | none =>
    by_cases hfree : (v.cells ino).pi.IsFree
    · rw [modify_eq_self (by rw [hm]; exact if_pos hfree)]
      exact h.same_of_kept (.refl v)
    · refine h.same_of_modify ?_ ?_ (by simp only [hm, if_neg hfree])
      · refine h.sane.set (x := ino) (fun y hy => modify_of_ne hy) ?_ (h.sane.pos ino hfree)
          (h.sane.inTable hfree) le_rfl h.sane.chain fun y hy => ?_
        · rw [modify_self]
          simp only [hm, if_neg hfree]
          refine ⟨(h.sane.ok ino).used, fun m hmem => ⟨hfree, ?_⟩⟩
          obtain rfl := Option.some.inj hmem
          rfl
        · rw [if_neg]
          · exact hy
          · rintro rfl
            exact h.sane.onList y hy hm
      · simp only [hm, if_neg hfree]
        rw [Cell.view_of_inUse hfree, Cell.view_of_inUse (by exact hfree)]
        simp [Cell.links, Cell.dirInode, hm]

theorem Inv.setFlags (h : v.Inv a) (env : Env) (hm : v.inode ino ≠ none)
    (append immutable : Bool) :
    ∃ r v', v.setFlags ino append immutable env = some (r, v') ∧ v.Same v' a := by
  rw [Volume.setFlags]
  cases env.trans with
  | error e => exact ⟨_, v, rfl, h.same_of_kept (.refl v)⟩
  | ok _ =>
    obtain ⟨m, hmem⟩ := Option.ne_none_iff_exists'.mp hm
    have hcell : (v.cells ino).inode = some m := hmem
    obtain ⟨hused, hsync⟩ := (h.sane.ok ino).cached m hcell
    refine ⟨_, v.modify ino (writeFlags append immutable), rfl, h.same_of_modify ?_ ?_ rfl⟩
    · refine h.sane.modify hm ⟨(h.sane.ok ino).used, fun n hn => ⟨hused, ?_⟩⟩
        (by simp [writeFlags, hcell])
      simp only [writeFlags, hcell, Option.map_some, Option.some.injEq] at hn
      rw [← hn, hsync]
      rfl
    · rw [Cell.view_of_inUse hused, Cell.view_of_inUse (by exact hused)]
      simp [writeFlags, Cell.links, Cell.dirInode, hcell]

/-! ## Runs -/

/-- Whatever has no links is on the truncate list. -/
def Listed (v : Volume) (a : Tree) : Prop :=
  ∀ x, a.kind x ≠ none → a.nlink x = 0 → x ∈ v.sTruncate

theorem Done.listed {a' : Tree} (h : v.Done v' a a') (hl : v.Listed a) : v'.Listed a' := by
  intro x hx hzero
  rcases h.dropped x hx hzero with hmem | ⟨hold, hzero⟩
  · exact hmem
  · exact h.keeps x (hl x hold hzero)

theorem Same.listed (h : v.Same v' a) (hl : v.Listed a) : v'.Listed a :=
  fun x hx hzero => h.sTruncate ▸ hl x hx hzero

/-- Inodes without links are freed when they are evicted. -/
def Call.KeepsListed (v : Volume) (env : Env) : Call → Prop
  | evict ino => ∀ m, v.inode ino = some m → m.iNlink = 0 → FreesInode env m
  | _ => True

theorem Inv.pmfsEvictInode (h : v.Inv a) (hm : v.inode ino ≠ none) (hs : env.seconds ≠ 0) :
    ∃ a', (v.pmfsEvictInode ino env).Inv a' ∧
      (v.Listed a → (Call.evict ino).KeepsListed v env →
        (v.pmfsEvictInode ino env).Listed a') := by
  obtain ⟨m, hmem⟩ := Option.ne_none_iff_exists'.mp hm
  have hcell : (v.cells ino).inode = some m := hmem
  by_cases hfrees : m.iNlink = 0 ∧ FreesInode env m
  · refine ⟨_, (h.evict_freed hmem hfrees.1 hfrees.2 hs).1, fun hl _ x hx hzero => ?_⟩
    have hne : x ≠ ino := by
      rintro rfl
      exact hx (Function.update_self ..)
    have hkind : (a.evict ino).kind x = a.kind x := Function.update_of_ne hne ..
    exact h.sane.sTruncate_evict (hl x (hkind ▸ hx) hzero) hne
  · have hkept : evictFrees env (v.cells ino) = v.cells ino := by
      by_cases hlinks : m.iNlink = 0
      · exact evictFrees_of_not_frees hcell fun hf => hfrees ⟨hlinks, hf⟩
      · exact evictFrees_of_nlink hcell hlinks
    refine ⟨a, h.evict_kept hm hkept, fun hl hkeeps x hx hzero => ?_⟩
    refine h.sane.sTruncate_evict (hl x hx hzero) ?_
    rintro rfl
    have hlinks : m.iNlink = 0 := by
      rw [Tree.nlink, (kind_of_inUse h.models ((h.sane.ok x).inUse hm)).2, Cell.links, hcell]
        at hzero
      exact hzero
    exact hfrees ⟨hlinks, hkeeps m hmem hlinks⟩

/-- A call returns and keeps the invariant, and with `keeps` also what is listed. -/
def Goes (v : Volume) (a : Tree) (keeps : Prop) (r : Result) : Prop :=
  ∃ e v' a', r = some (e, v') ∧ v'.Inv a' ∧ (v.Listed a → keeps → v'.Listed a')

section

variable {r : Result} {keeps : Prop}

theorem Same.goes {e : Except Code Unit} (h : v.Same v' a) (hr : r = some (e, v')) :
    v.Goes a keeps r := ⟨e, v', a, hr, h.inv, fun hl _ => h.listed hl⟩

theorem Done.goes {a' : Tree} (h : v.Done v' a a') (hr : r = some (.ok (), v')) :
    v.Goes a keeps r := ⟨_, v', a', hr, h.inv, fun hl _ => h.listed hl⟩

theorem Refused.goes (hr : v.Refused r) (h : v.Inv a) : v.Goes a keeps r := by
  obtain ⟨e, v', hr, hkept⟩ := hr
  exact (h.same_of_kept hkept).goes hr

theorem Created.goes {mode : ℕ} {after : ℕ → Tree} (hr : v.Created r a mode after) :
    v.Goes a keeps r := by
  obtain ⟨ino, v', hr, -, -, hdone⟩ := hr
  exact hdone.goes hr

theorem Inv.goes_of_ended {a' : Tree} (h : v.Inv a)
    (hr : v.Refused r ∨ ∃ v', r = some (.ok (), v') ∧ v.Done v' a a') : v.Goes a keeps r := by
  rcases hr with hr | ⟨v', hr, hdone⟩
  · exact hr.goes h
  · exact hdone.goes hr

theorem Inv.goes_of_created {mode : ℕ} {after : ℕ → Tree} (h : v.Inv a)
    (hr : v.Refused r ∨ v.Created r a mode after) : v.Goes a keeps r :=
  hr.elim (fun hr => hr.goes h) Created.goes

theorem Inv.goes_createNondir {p : Place} {mode : ℕ} (h : v.Inv a) (hp : v.MayName p)
    (hdir : kindOf mode ≠ .dir) (hmode : mode ≠ 0) (hn : env.newInode.Promised v) :
    v.Goes a keeps (v.createNondir p mode env) := by
  rcases h.createNondir hp hdir hmode hn with hr | ⟨v', hr, hkept, -⟩ | hr
  · exact hr.goes h
  · exact (h.same_of_kept hkept).goes hr
  · exact hr.goes

end

theorem kindOf_reg {mode : ℕ} (h : kindOf mode = .reg) : kindOf mode ≠ .dir ∧ mode ≠ 0 := by
  refine ⟨by simp [h], ?_⟩
  rintro rfl
  exact absurd h (by decide)

/-- A call that its caller may make returns, and keeps the invariant. -/
theorem Inv.exec {c : Call} (h : v.Inv a) (hp : c.Promised v env) :
    v.Goes a (c.KeepsListed v env) (c.exec v env) := by
  cases c with
  | create p mode =>
    obtain ⟨hname, hreg, hn⟩ := hp
    obtain ⟨hdir, hmode⟩ := kindOf_reg hreg
    exact h.goes_createNondir hname hdir hmode hn
  | mknod p mode => exact h.goes_createNondir hp.1 hp.2.1 hp.2.2.1 hp.2.2.2
  | symlink p len => exact h.goes_of_created (h.pmfsSymlink hp.1 hp.2 len)
  | link inode p => exact h.goes_of_ended (h.pmfsLink hp.1 hp.2.1 hp.2.2)
  | unlink p inode =>
    exact h.goes_of_ended ((h.pmfsUnlink env hp.1 hp.2).imp_left fun ⟨_, _, hr⟩ => hr)
  | mkdir p mode => exact h.goes_of_created (h.pmfsMkdir hp.1 hp.2.1 hp.2.2)
  | rmdir p inode => exact h.goes_of_ended (h.pmfsRmdir hp.1 hp.2)
  | rename p inode q replaced =>
    obtain ⟨hnamed, hlive, hmem, hnorm, rfl, hne, hkinds⟩ := hp
    exact h.goes_of_ended (h.pmfsRename hnamed hlive hmem hnorm hne hkinds)
  | evict ino =>
    obtain ⟨a', hinv, hlisted⟩ := h.pmfsEvictInode hp.1 hp.2
    exact ⟨_, _, a', rfl, hinv, hlisted⟩
  | iget ino => exact (h.pmfsIget ino).goes rfl
  | setFlags ino append immutable =>
    obtain ⟨r, v', hr, hsame⟩ := h.setFlags env hp append immutable
    exact hsame.goes hr

/-- A slot of the table that `pmfs_init` makes, and the root directory. -/
def initCell (mode : ℕ) (b : Block) (ino : ℕ) : Cell :=
  if ino = pmfsRootIno then
    dirCell (sIfdir ||| mode) fun _ => mkdirBlock pmfsRootIno pmfsRootIno b
  else ⟨zeroSlot, none, fun _ => b⟩

/-- The volume after `pmfs_init`, with an inode table of `n` blocks and the root in memory. -/
def pmfsInit (n mode : ℕ) (b : Block) : Volume where
  cells := initCell mode b
  sInodesCount := n * inodesPerBlock
  sTruncate := []
  iNextTruncate _ := 0
  iTruncatesize _ := 0
  head := 0

/-- One more call returns. -/
inductive Step (ok : Volume → Env → Call → Prop) (v v' : Volume) : Prop
  | mk (c : Call) (env : Env) (r : Except Code Unit) (hpromised : c.Promised v env)
      (hok : ok v env c) (hexec : c.exec v env = some (r, v'))

abbrev Reaches (ok : Volume → Env → Call → Prop) : Volume → Volume → Prop :=
  Relation.ReflTransGen (Step ok)

/-- A volume that calls lead to, each of which meets `ok`. -/
def Reached (ok : Volume → Env → Call → Prop) (v : Volume) : Prop :=
  ∃ n mode b, 0 < n ∧ mode &&& sIfmt = 0 ∧ Reaches ok (pmfsInit n mode b) v

theorem inv_pmfsInit {n mode : ℕ} (b : Block) (hn : 0 < n) (hmode : mode &&& sIfmt = 0) :
    (pmfsInit n mode b).Inv Tree.init := by
  have hroot : initCell mode b pmfsRootIno =
      dirCell (sIfdir ||| mode) fun _ => mkdirBlock pmfsRootIno pmfsRootIno b := if_pos rfl
  have hother : ∀ {x}, x ≠ pmfsRootIno → initCell mode b x = ⟨zeroSlot, none, fun _ => b⟩ :=
    fun hx => if_neg hx
  have hin : ∀ {x}, x ≠ pmfsRootIno → (pmfsInit n mode b).pi x = zeroSlot := fun hx =>
    congrArg Cell.pi (hother hx)
  refine ⟨?_, Tree.init_names, ⟨0, Tree.init_counts⟩, fun x => ?_, fun x hx => ?_, fun x hx => ?_,
    rfl, nofun⟩
  · have hfs : (pmfsInit n mode b).toFs = Namei.pmfsInit b := by
      refine congrArg Fs.mk (funext fun x => ?_)
      change (initCell mode b x).view x = _
      by_cases hx : x = pmfsRootIno
      · rw [hx, Function.update_self, hroot, Cell.view_of_inUse]
        · rw [← kindOf_sIfdir hmode]
          rfl
        · exact fun hfree => absurd hfree.1 (by decide : (2 : ℕ) ≠ 0)
      · rw [Function.update_of_ne hx, hother hx]
        exact Cell.view_of_free isFree_zeroSlot
    rw [hfs]
    exact Fs.models_init
  · by_cases hx : x = pmfsRootIno
    · rw [hx]
      change (initCell mode b pmfsRootIno).Ok
      rw [hroot]
      exact ok_dirCell sIfdir_ne_zero
    · change (initCell mode b x).Ok
      rw [hother hx]
      exact ⟨fun hused => absurd isFree_zeroSlot hused, nofun⟩
  · rintro rfl
    rw [hin (show 0 ≠ pmfsRootIno by decide)] at hx
    exact hx isFree_zeroSlot
  · refine hin ?_
    rintro rfl
    have hlt : 1 * inodesPerBlock * 2 ^ pmfsInodeBits ≤ n * inodesPerBlock * 2 ^ pmfsInodeBits :=
      Nat.mul_le_mul_right _ (Nat.mul_le_mul_right _ hn)
    exact hx (lt_of_lt_of_le (by decide) hlt)

variable {ok : Volume → Env → Call → Prop}

theorem Step.inv (hstep : Step ok v v') (h : v.Inv a) : ∃ a', v'.Inv a' := by
  obtain ⟨c, env, r, hp, -, hexec⟩ := hstep
  obtain ⟨r', w, a', hexec', hinv, -⟩ := h.exec hp
  obtain ⟨-, rfl⟩ := Prod.mk.inj (Option.some.inj (hexec.symm.trans hexec'))
  exact ⟨a', hinv⟩

theorem Reached.inv (h : Reached ok v) : ∃ a, v.Inv a := by
  obtain ⟨n, mode, b, hn, hmode, hreaches⟩ := h
  induction hreaches with
  | refl => exact ⟨_, inv_pmfsInit b hn hmode⟩
  | tail _ hstep ih =>
    obtain ⟨a, ha⟩ := ih
    exact hstep.inv ha

end Wpmfs.Volume
