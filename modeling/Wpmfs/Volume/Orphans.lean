import Wpmfs.Namei.Nlink
import Wpmfs.Volume.Runs

/-!
# Inodes that nothing frees

An inode without links is freed by its eviction, or by the next mount when it is on the truncate
list. An eviction takes it off the list also where it does not free it.
-/

namespace Wpmfs.Volume

open Bytes Dir Namei
open Wpmfs.Inode (PmfsInode Truncates)

variable {v v' : Volume} {a : Tree} {x y ino : ℕ} {env : Env}

/-- The next mount comes by the inode. -/
def Visited (v : Volume) (x : ℕ) : Prop :=
  ∃ n l, v.truncates.pmfsRecoverTruncateList n = some l ∧ x ∈ l

/-- A slot that holds an inode without links is free, or the next mount comes by it. -/
def NoOrphans (v : Volume) : Prop :=
  ∀ x, (v.pi x).iLinksCount = 0 → (v.pi x).iMode ≠ 0 → (v.pi x).IsFree ∨ v.Visited x

theorem Sane.visited_iff (h : v.Sane) : v.Visited x ↔ x ∈ v.sTruncate := by
  constructor
  · rintro ⟨n, l, hl, hx⟩
    rwa [← h.chain.unique (Linked.of_follow hl)] at hx
  · exact fun hx => ⟨_, _, h.chain.follow, hx⟩

theorem Inv.noOrphans_of_listed (h : v.Inv a) (hl : v.Listed a) : v.NoOrphans := by
  intro x hlinks hmode
  by_cases hfree : (v.pi x).IsFree
  · exact .inl hfree
  · obtain ⟨hkind, hcount⟩ := kind_of_inUse h.models hfree
    obtain ⟨slack, hcounts⟩ := h.counts
    have hsynced := (hcounts.ok x (by simp [hkind])).synced
    refine .inr (h.sane.visited_iff.mpr (hl x (by simp [hkind]) ?_))
    rw [Tree.nlink, ← hsynced, hcount]
    exact hlinks

/-- An eviction that does not free an inode without links makes it an orphan. -/
theorem Inv.orphan {m : VfsInode} (h : v.Inv a) (hm : v.inode ino = some m)
    (hlinks : m.iNlink = 0) (hfrees : ¬FreesInode env m) :
    ¬(v.pmfsEvictInode ino env).NoOrphans := by
  have hin : v.inode ino ≠ none := by simp [hm]
  have hused := (h.sane.ok ino).inUse hin
  have hkept := evictFrees_of_not_frees (c := v.cells ino) hm hfrees
  have hpi : (v.pmfsEvictInode ino env).pi ino = v.pi ino := by
    rw [pi_evict_self, hkept]
    rfl
  have hsane := (h.evict_kept hin hkept).sane
  obtain ⟨hkind, hcount⟩ := kind_of_inUse h.models hused
  obtain ⟨slack, hcounts⟩ := h.counts
  have hslot : (v.pi ino).iLinksCount = 0 := by
    have hcell : (v.cells ino).inode = some m := hm
    have hsynced := (hcounts.ok ino (by simp [hkind])).synced
    rw [hcount, Cell.links, hcell] at hsynced
    exact hsynced.trans hlinks
  intro hnone
  rcases hnone ino (hpi ▸ hslot) (hpi ▸ ((h.sane.ok ino).used hused).1) with hfree | hvisited
  · rw [hpi] at hfree
    exact hused hfree
  · rw [hsane.visited_iff, pmfsEvictInode_eq] at hvisited
    have hmem : ino ∈ (v.pmfsTruncateDel ino).sTruncate := hvisited
    rw [h.sane.pmfsTruncateDel.2, h.sane.chain.nodup.mem_erase_iff] at hmem
    exact hmem.1 rfl

abbrev KeepsListed (v : Volume) (env : Env) (c : Call) : Prop := c.KeepsListed v env

theorem Reached.listed (h : Reached KeepsListed v) : ∃ a, v.Inv a ∧ v.Listed a := by
  obtain ⟨n, mode, b, hn, hmode, hreaches⟩ := h
  induction hreaches with
  | refl =>
    refine ⟨_, inv_pmfsInit b hn hmode, fun x hx hzero => ?_⟩
    simp [Tree.nlink, Tree.init] at hzero
  | tail _ hstep ih =>
    obtain ⟨a, ha, hl⟩ := ih
    obtain ⟨c, env, r, hp, hok, hexec⟩ := hstep
    obtain ⟨r', w, a', hexec', hinv, hlisted⟩ := ha.exec hp
    obtain ⟨-, rfl⟩ := Prod.mk.inj (Option.some.inj (hexec.symm.trans hexec'))
    exact ⟨a', hinv, hlisted hl hok⟩

/-- No orphans come about in a run whose evictions free what has no links. -/
theorem Reached.noOrphans (h : Reached KeepsListed v) : v.NoOrphans := by
  obtain ⟨a, hinv, hlisted⟩ := h.listed
  exact hinv.noOrphans_of_listed hlisted

/-! ## A run that makes an inode and takes its name away -/

theorem inode_pmfsIget_of_ne (h : y ≠ ino) : (v.pmfsIget ino).inode y = v.inode y :=
  congrArg Cell.inode (modify_of_ne h)

/-- An inode that is read is in memory. -/
theorem Inv.inode_pmfsIget (h : v.Inv a) (hk : a.kind ino ≠ none) :
    (v.pmfsIget ino).inode ino ≠ none := by
  have hused : ¬(v.cells ino).pi.IsFree := fun hfree => hk (kind_of_free h.models hfree)
  rw [Volume.inode, Volume.pmfsIget, modify_self]
  cases hm : (v.cells ino).inode with
  | some m => exact fun hnone => Option.some_ne_none m (hm.symm.trans hnone)
  | none =>
    simp only [if_neg hused]
    exact Option.some_ne_none _

/-- Nothing is short. A new inode is the one with the number 384. -/
def plenty : Env := ⟨.ok (), .found 384 false, .ok fun _ => 0, .ok fun _ => 0, .ok (), 0, 1⟩

def place : Place := (pmfsRootIno, [0x61])

theorem mayName_init {b : Block} (h : (pmfsInit 1 0 b).Inv Tree.init) :
    (pmfsInit 1 0 b).MayName place := by
  refine ⟨Op.MayName.congr h.models.tree_kind.symm (h.models.tree_entry h.names).symm
    ⟨⟨?_, .inl rfl⟩, Fs.normName_letter (by decide), rfl⟩, ?_⟩
  · simp [Tree.init, place]
  · exact Option.some_ne_none (⟨sIfdir ||| 0, 2, 1, false, false, 0⟩ : VfsInode)

theorem found_init {b : Block} : (pmfsInit 1 0 b).Found 384 false :=
  ⟨show 384 < 1 * 32 * 2 ^ 7 by decide, isFree_zeroSlot, by decide, by decide⟩

/-- `mknod` and `unlink` of a name, while the inode stays open. -/
theorem exists_unlinked (mode : ℕ) (hdir : kindOf mode ≠ .dir) (hmode : mode ≠ 0) :
    ∃ v a m, Reached KeepsListed v ∧ v.Inv a ∧ v.inode 384 = some m ∧ m.iNlink = 0 ∧
      kindOf m.iMode = kindOf mode := by
  have h₀ : (pmfsInit 1 0 fun _ => 0).Inv Tree.init := inv_pmfsInit _ Nat.one_pos rfl
  have hname := mayName_init h₀
  have hnew : NewInode.Promised (pmfsInit 1 0 fun _ => 0) plenty.newInode := ⟨found_init, rfl⟩
  obtain ⟨e, he, -⟩ | ⟨v₁, hmknod, -, -, hdone₁⟩ :=
    h₀.createNondir_found hname hdir hmode hnew rfl rfl
  · cases he
  have h₁ := hdone₁.inv
  have hroot : (Tree.init.create place 384 (kindOf mode)).kind pmfsRootIno = some .dir :=
    h₁.names.root
  have hkind : (Tree.init.create place 384 (kindOf mode)).kind 384 = some (kindOf mode) := by
    simp [Tree.create]
  have hentry : (Tree.init.create place 384 (kindOf mode)).entry place = some 384 := by
    simp [Tree.create]
  have h₂ := (h₁.pmfsIget pmfsRootIno).inv
  have h₃ := (h₂.pmfsIget 384).inv
  have hin : ((v₁.pmfsIget pmfsRootIno).pmfsIget 384).inode 384 ≠ none :=
    h₂.inode_pmfsIget (by simp [hkind])
  have hrootin : ((v₁.pmfsIget pmfsRootIno).pmfsIget 384).inode pmfsRootIno ≠ none := by
    rw [inode_pmfsIget_of_ne (by decide)]
    exact h₁.inode_pmfsIget (by simp [hroot])
  have hnamed : ((v₁.pmfsIget pmfsRootIno).pmfsIget 384).NamedBy place 384 :=
    ⟨(congrFun (h₃.models.entry_eq h₃.names) place).trans hentry, hrootin, hin⟩
  have hfile : ((v₁.pmfsIget pmfsRootIno).pmfsIget 384).toFs.kind 384 ≠ some .dir := by
    rw [h₃.models.kind_eq, hkind]
    exact fun heq => hdir (Option.some.inj heq)
  obtain ⟨e, he, -⟩ | ⟨v₄, hunlink, hdone₄⟩ := h₃.pmfsUnlink plenty hnamed hfile
  · cases he
  have hzero : ((Tree.init.create place 384 (kindOf mode)).unlink place 384).nlink 384 = 0 := by
    simp [Tree.nlink, Tree.unlink, Tree.create]
  have hlisted : 384 ∈ v₄.sTruncate := by
    refine (hdone₄.dropped 384 ?_ hzero).resolve_right fun hold => ?_
    · exact hkind ▸ Option.some_ne_none _
    · simp [Tree.nlink, Tree.create] at hold
  obtain ⟨m, hm⟩ := Option.ne_none_iff_exists'.mp (hdone₄.inv.sane.onList 384 hlisted)
  obtain ⟨hused, hsync⟩ := (hdone₄.inv.sane.ok 384).cached m hm
  obtain ⟨hkind₄, hlinks₄⟩ := kind_of_inUse hdone₄.inv.models hused
  refine ⟨v₄, _, m, ⟨1, 0, fun _ => 0, Nat.one_pos, rfl, ?_⟩, hdone₄.inv, hm, ?_, ?_⟩
  · exact (((Relation.ReflTransGen.refl.tail
      ⟨.mknod place mode, plenty, _, ⟨hname, hdir, hmode, hnew⟩, trivial, hmknod⟩).tail
      ⟨.iget pmfsRootIno, plenty, _, trivial, trivial, rfl⟩).tail
      ⟨.iget 384, plenty, _, trivial, trivial, rfl⟩).tail
      ⟨.unlink place 384, plenty, _, ⟨hnamed, hfile⟩, trivial, hunlink⟩
  · rw [Tree.nlink, hlinks₄, Cell.links] at hzero
    have hcell : (v₄.cells 384).inode = some m := hm
    rwa [hcell] at hzero
  · have hsame : m.iMode = (v₄.pi 384).iMode := by rw [hsync]; rfl
    have hold : some (kindOf (v₄.pi 384).iMode) = some (kindOf mode) := hkind₄.symm.trans hkind
    rw [hsame]
    exact Option.some.inj hold

theorem Reached.mono {ok ok' : Volume → Env → Call → Prop} (h : Reached ok v)
    (hok : ∀ v env c, ok v env c → ok' v env c) : Reached ok' v := by
  obtain ⟨n, mode, b, hn, hmode, hreaches⟩ := h
  refine ⟨n, mode, b, hn, hmode, Relation.ReflTransGen.mono (fun u w hstep => ?_) _ _ hreaches⟩
  obtain ⟨c, env, r, hp, hc, hexec⟩ := hstep
  exact ⟨c, env, r, hp, hok _ _ _ hc, hexec⟩

def sIfifo : ℕ := 0x1000

/-- A regular file without a name is no orphan while it is open. -/
theorem noOrphans_open : ∃ v, Reached KeepsListed v ∧ (∃ m, v.inode 384 = some m ∧ m.iNlink = 0) ∧
    v.NoOrphans := by
  obtain ⟨v, -, m, hreached, -, hm, hlinks, -⟩ :=
    exists_unlinked sIfreg (by decide) (by decide)
  exact ⟨v, hreached, ⟨m, hm, hlinks⟩, hreached.noOrphans⟩

/-- The eviction of a named pipe that has lost its name leaves its slot in use for good. -/
theorem not_noOrphans_pipe : ∃ v, Reached (fun _ _ _ => True) v ∧ ¬v.NoOrphans := by
  obtain ⟨v, a, m, hreached, hinv, hm, hlinks, hkind⟩ :=
    exists_unlinked sIfifo (by decide) (by decide)
  have hall : Reached (fun _ _ _ => True) v := hreached.mono fun _ _ _ _ => trivial
  obtain ⟨n, mode, b, hn, hmode, hreaches⟩ := hall
  refine ⟨v.pmfsEvictInode 384 plenty, ⟨n, mode, b, hn, hmode, hreaches.tail ?_⟩, ?_⟩
  · exact ⟨.evict 384, plenty, _, ⟨by simp [hm], by decide⟩, trivial, rfl⟩
  · refine hinv.orphan hm hlinks fun hfrees => hfrees.kind ?_
    rw [hkind]
    decide

end Wpmfs.Volume
