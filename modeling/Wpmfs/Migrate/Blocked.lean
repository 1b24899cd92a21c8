import Wpmfs.Migrate.Basic
import Wpmfs.Vmap.Marks

/-!
# Migrations that cannot be completed

A migration stops early if there is no block to move to, if the entry of the page cache is locked,
or if the virtual page is not mapped. The three ways check for `-ENOMEM` alone, which only the
wear-aware allocator returns, and undo different things.
-/

namespace Wpmfs.Migrate

open Balloc Vmap

inductive Migration where
  | rmap (b : ℕ)
  | vmap (b : ℕ)
  /-- A lookup at the pointer `idx` of `levelPtr`. -/
  | tired (levelPtr idx : ℕ)

namespace Migration

/-- The pointer that the lookup returns, if it is one, and the state. -/
def run (o o' : Surroundings) (junk : ℕ) (s : Fs) : Migration → Option (ℕ × Fs)
  | rmap b => (s.levelTypeRmap o o' junk b).map (0, ·)
  | vmap b => (s.sb.levelTypeVmap o o' b).map fun sb => (0, s.setSb sb)
  | tired levelPtr idx =>
    (Fs.wpmfsRetrieveDatablk o junk s.sb levelPtr idx).map fun r => (r.1, s.setSb r.2)

/-- The page to move is one for this way. -/
def Applies (s : Fs) : Migration → Prop
  | rmap b => s.sb.alloc.InUse b ∧ ∃ ino, s.mapping b = some ino ∧ s.freeing ino = false
  | vmap b => s.sb.alloc.InUse b ∧ (s.sb.marks b).pageVmap = true
  | tired levelPtr idx => ∃ b, s.sb.wpmfsGetPfn (s.sb.word levelPtr idx) = some b ∧
      s.sb.word levelPtr idx ≠ 0 ∧ (s.sb.marks b).pageTired = true

/-- The allocator gives a block, and the rest of the migration is in the way. -/
def Obstructed (s : Fs) : Migration → Prop
  | rmap b => ∃ ino entry, s.mapping b = some ino ∧
      s.iPages ino (s.sb.pageIndex b) = some entry ∧ entry.locked = true
  | vmap b => (s.sb.area (Sb.regionOf (s.sb.marks b))).pte (s.sb.pageIndex b) = none
  | tired _ _ => False

def Blocked (o : Surroundings) (s : Fs) (m : Migration) : Prop :=
  (∃ e sb, s.sb.newBlock o = (.error e, sb)) ∨ m.Obstructed s

/-- Trees, tables, contents and the allocated blocks are as before, and a lookup finds what was
there. -/
structure Untouched (s : Fs) (m : Migration) (r : ℕ × Fs) : Prop where
  words : r.2.sb.words = s.sb.words
  inode : r.2.inode = s.inode
  area : r.2.sb.area = s.sb.area
  inUse : ∀ x, r.2.sb.alloc.InUse x ↔ s.sb.alloc.InUse x
  found : ∀ levelPtr idx, m = tired levelPtr idx → r.1 = s.sb.word levelPtr idx

/-- Whatever the stack held, the migration comes back without a bad store, and nothing has changed.
-/
def Withdraws (o o' : Surroundings) (s : Fs) (m : Migration) : Prop :=
  ∀ junk, ∃ r, m.run o o' junk s = some r ∧ Untouched s m r

/-- The migrations that are undone: where the allocator says `-ENOMEM`, those outside of lookups;
where it gave a block, those of pages of files, if the block goes back. -/
def Handled (o o' : Surroundings) (s : Fs) : Migration → Prop
  | rmap _ =>
    match s.sb.newBlock o with
    | (.ok q, sb) => ∃ sb', sb.freeBlock o' q = some sb' ∧ ¬sb'.alloc.InUse q
    | (.error e, _) => e = .enomem
  | vmap _ => ∃ sb, s.sb.newBlock o = (.error .enomem, sb)
  | tired _ _ => False

variable {s : Fs} {m : Migration} {o o' : Surroundings} {b q lo hi junk : ℕ} {sb sb' : Sb}

/-- The allocator is called and the rest of the state stays. -/
theorem newBlock_eq (hnew : s.sb.newBlock o = (r, sb)) : sb = { s.sb with alloc := sb.alloc } ∧
    s.sb.alloc.newBlock o = (r, sb.alloc) := by
  rw [Sb.newBlock] at hnew
  cases h : s.sb.alloc.newBlock o with
  | mk res a =>
    rw [h] at hnew
    cases hnew
    exact ⟨rfl, rfl⟩

theorem freeBlock_eq (hfree : sb.freeBlock o b = some sb') : sb' = { sb with alloc := sb'.alloc } ∧
    sb.alloc.freeBlock o b = some sb'.alloc := by
  obtain ⟨a, ha, rfl⟩ := Option.map_eq_some_iff.mp hfree
  exact ⟨rfl, ha⟩

/-- A failed allocation is not noticed from outside. -/
theorem untouched_error {e : Errno} (h : s.sb.alloc.Inv lo hi)
    (hnew : s.sb.newBlock o = (.error e, sb)) (hm : ∀ levelPtr idx, m ≠ tired levelPtr idx) :
    Untouched s m (0, s.setSb sb) := by
  obtain ⟨hsb, halloc⟩ := newBlock_eq hnew
  obtain ⟨hsame, -⟩ := h.newBlock_error halloc
  refine ⟨?_, rfl, ?_, hsame.inUse, fun levelPtr idx hti => absurd hti (hm levelPtr idx)⟩
  · rw [Fs.setSb, hsb]
  · rw [Fs.setSb, hsb]

/-- After a migration that gives back the old block that block is not allocated. -/
theorem not_untouched_of_free {r : ℕ × Fs} (h : sb.alloc.Inv lo hi)
    (hnode : sb.alloc.isWear = true ∨ o'.nodeOk = true) (hb : s.sb.alloc.InUse b)
    (hbt : sb.alloc.InUse b) (hfree : sb.freeBlock o' b = some r.2.sb) : ¬Untouched s m r := by
  intro huntouched
  obtain ⟨-, halloc⟩ := freeBlock_eq hfree
  have hstill := (huntouched.inUse b).mpr hb
  rcases h.freeBlock hbt halloc with hreturned | ⟨hkind, hno, -⟩
  · exact ((hreturned.inUse b).mp hstill).2 rfl
  · rcases hnode with hwear | hok
    · rw [hkind] at hwear
      cases hwear
    · rw [hno] at hok
      cases hok

/-! ## Pages of files -/

theorem movePointer_alloc {levelPtr idx : ℕ} (h : Fs.movePointer sb levelPtr idx q = some sb') :
    sb'.alloc = sb.alloc := by
  unfold Fs.movePointer at h
  split at h
  · obtain rfl := Option.some.inj h
    simp
  · cases h

theorem replace_alloc {t : Fs} {ino pgoff : ℕ}
    (h : s.wpmfsReplaceSingleDatablk ino pgoff q = some t) : t.sb.alloc = s.sb.alloc := by
  unfold Fs.wpmfsReplaceSingleDatablk at h
  split at h
  · cases h
  · split at h
    · cases h
    · obtain rfl := Option.some.inj h
      rfl
    · obtain ⟨sb, hsb, rfl⟩ := Option.map_eq_some_iff.mp h
      exact movePointer_alloc hsb

theorem core_alloc {t : Fs} {moved : Bool} (h : s.levelTypeRmapCore b q = some (moved, t)) :
    t.sb.alloc = s.sb.alloc := by
  unfold Fs.levelTypeRmapCore at h
  split at h
  · cases h
    rfl
  · split at h
    · cases h
    · dsimp only at h
      split at h
      · cases h
        rfl
      · split at h
        · cases h
          rfl
        · obtain ⟨u, hu, ht⟩ := Option.map_eq_some_iff.mp h
          cases ht
          exact (replace_alloc hu).trans rfl

theorem core_obstructed (h : (rmap b).Obstructed s) : s.levelTypeRmapCore b q = some (false, s) := by
  obtain ⟨ino, entry, hmapping, hentry, hlocked⟩ := h
  rw [Fs.levelTypeRmapCore, hmapping]
  dsimp only
  rw [hentry]
  dsimp only
  rw [if_pos hlocked, ite_self]

theorem run_rmap (h : (rmap b).Applies s) : (rmap b).run o o' junk s =
    (match s.sb.newBlock o with
      | (.ok q, sb) => (s.setSb sb).rmapTo o' b q
      | (.error .enomem, sb) => some (s.setSb sb)
      | (.error .enospc, sb) => (s.setSb sb).rmapTo o' b junk).map (0, ·) := by
  obtain ⟨-, ino, hmapping, hfreeing⟩ := h
  rw [run, Fs.levelTypeRmap, hmapping]
  exact congrArg (Option.map (0, ·)) (if_neg (by simp [hfreeing]))

theorem handled_rmap (h : s.sb.alloc.Inv lo hi) (happlies : (rmap b).Applies s)
    (hblocked : Blocked o s (rmap b)) (hhandled : Handled o o' s (rmap b)) :
    Withdraws o o' s (rmap b) := by
  intro junk
  rw [run_rmap happlies]
  cases hnew : s.sb.newBlock o with
  | mk res sb =>
    rw [Handled, hnew] at hhandled
    cases res with
    | error e =>
      obtain rfl : e = .enomem := hhandled
      exact ⟨_, rfl, untouched_error h hnew nofun⟩
    | ok q =>
      obtain ⟨sb', hfree, hout⟩ := hhandled
      have hobs : (rmap b).Obstructed s := hblocked.resolve_left (by simp [hnew])
      obtain ⟨hsb, halloc⟩ := newBlock_eq hnew
      have hobs' : (rmap b).Obstructed (s.setSb sb) := by
        rw [hsb]
        exact hobs
      have hspec := h.newBlock halloc
      obtain ⟨hsb', halloc'⟩ := freeBlock_eq hfree
      refine ⟨(0, s.setSb sb'), ?_, ?_⟩
      · dsimp only
        rw [Fs.rmapTo, core_obstructed hobs']
        change ((sb.freeBlock o' q).map (s.setSb sb).setSb).map _ = _
        rw [hfree]
        rfl
      · refine ⟨?_, rfl, ?_, fun x => ?_, nofun⟩
        · rw [Fs.setSb, hsb', hsb]
        · rw [Fs.setSb, hsb', hsb]
        · have hnotIn := h.disjoint hspec.was
          have hq : sb.alloc.InUse q := (hspec.inUse q).mpr (.inr rfl)
          rcases hspec.inv.freeBlock hq halloc' with hreturned | ⟨-, -, hsame⟩
          · change sb'.alloc.InUse x ↔ _
            rw [hreturned.inUse, hspec.inUse]
            constructor
            · rintro ⟨hx | hx, hne⟩
              · exact hx
              · exact absurd hx hne
            · exact fun hx => ⟨.inl hx, fun hxq => hnotIn (hxq ▸ hx)⟩
          · exact absurd ((hsame.inUse q).mpr hq) hout

theorem of_withdraws_rmap (h : s.sb.alloc.Inv lo hi) (happlies : (rmap b).Applies s)
    (hblocked : Blocked o s (rmap b))
    (hnode : s.sb.alloc.isWear = true ∨ o'.nodeOk = true)
    (hwithdraws : Withdraws o o' s (rmap b)) : Handled o o' s (rmap b) := by
  obtain ⟨r, hrun, huntouched⟩ := hwithdraws b
  rw [run_rmap happlies] at hrun
  cases hnew : s.sb.newBlock o with
  | mk res sb =>
    obtain ⟨hsb, halloc⟩ := newBlock_eq hnew
    rw [hnew] at hrun
    rw [Handled, hnew]
    obtain ⟨t, ht, rfl⟩ := Option.map_eq_some_iff.mp hrun
    cases res with
    | error e =>
      cases e with
      | enomem => rfl
      | enospc =>
        -- the stack held the number of the old block, which is then given back
        obtain ⟨hsame, -⟩ := h.newBlock_error halloc
        have hbt : sb.alloc.InUse b := (hsame.inUse b).mpr happlies.1
        dsimp only at ht
        unfold Fs.rmapTo at ht
        split at ht
        · cases ht
        all_goals
          rename_i u hcore
          obtain ⟨sb', hfree, rfl⟩ := Option.map_eq_some_iff.mp ht
          have hu : u.sb.alloc = sb.alloc := core_alloc hcore
          have hinv : u.sb.alloc.Inv lo hi := hu ▸ hsame.inv
          refine absurd huntouched (not_untouched_of_free hinv ?_ happlies.1 (hu ▸ hbt) hfree)
          rw [hu, hsame.kind]
          exact hnode
    | ok q =>
      have hobs : (rmap b).Obstructed s := hblocked.resolve_left (by simp [hnew])
      have hobs' : (rmap b).Obstructed (s.setSb sb) := by
        rw [hsb]
        exact hobs
      dsimp only at ht
      rw [Fs.rmapTo, core_obstructed hobs'] at ht
      obtain ⟨sb', hfree, rfl⟩ := Option.map_eq_some_iff.mp ht
      refine ⟨sb', hfree, fun hq => ?_⟩
      exact h.disjoint (h.newBlock halloc).was ((huntouched.inUse q).mp hq)

/-! ## Pages behind mapping tables -/

theorem handled_vmap (h : s.sb.alloc.Inv lo hi) (hhandled : Handled o o' s (vmap b)) :
    Withdraws o o' s (vmap b) := by
  obtain ⟨sb, hnew⟩ := hhandled
  intro junk
  refine ⟨(0, s.setSb sb), ?_, untouched_error h hnew nofun⟩
  rw [run, Sb.levelTypeVmap, hnew]
  rfl

/-- Both ends of the migration give back the old block. -/
theorem migrateTo_free {t : Sb} (h : sb.migrateTo o' b q = some t) :
    ∃ u : Sb, u.alloc = sb.alloc.markPage q (sb.marks b) ∧ u.freeBlock o' b = some t := by
  unfold Sb.migrateTo at h
  dsimp only at h
  split at h
  · exact ⟨_, rfl, h⟩
  · exact ⟨_, rfl, h⟩

theorem of_withdraws_vmap (h : s.sb.alloc.Inv lo hi) (happlies : (vmap b).Applies s)
    (hnode : s.sb.alloc.isWear = true ∨ o'.nodeOk = true)
    (hwithdraws : Withdraws o o' s (vmap b)) : Handled o o' s (vmap b) := by
  obtain ⟨r, hrun, huntouched⟩ := hwithdraws 0
  obtain ⟨t, ht, rfl⟩ := Option.map_eq_some_iff.mp hrun
  rw [Sb.levelTypeVmap] at ht
  cases hnew : s.sb.newBlock o with
  | mk res sb =>
    obtain ⟨hsb, halloc⟩ := newBlock_eq hnew
    rw [hnew] at ht
    cases res with
    | error e =>
      cases e with
      | enomem => exact ⟨sb, hnew⟩
      | enospc =>
        -- `blocknr` still is the number of the old block
        obtain ⟨hsame, -⟩ := h.newBlock_error halloc
        obtain ⟨u, hu, hfree⟩ := migrateTo_free ht
        have hinv : u.alloc.Inv lo hi := hu ▸ hsame.inv.markPage
        refine absurd huntouched (not_untouched_of_free hinv ?_ happlies.1 ?_ hfree)
        · rw [hu, Factory.markPage_isWear, hsame.kind]
          exact hnode
        · rw [hu, Factory.markPage_inUse, hsame.inUse]
          exact happlies.1
    | ok q =>
      have hspec := h.newBlock halloc
      have hnotIn := h.disjoint hspec.was
      obtain ⟨u, hu, hfree⟩ := migrateTo_free ht
      have hinv : u.alloc.Inv lo hi := hu ▸ hspec.inv.markPage
      have hinUse : ∀ x, u.alloc.InUse x ↔ s.sb.alloc.InUse x ∨ x = q := by
        intro x
        rw [hu, Factory.markPage_inUse, hspec.inUse]
      -- the new block stays allocated
      have hq : t.alloc.InUse q := by
        obtain ⟨-, hfree⟩ := freeBlock_eq hfree
        have hqb : q ≠ b := fun hqb => hnotIn (hqb ▸ happlies.1)
        rcases hinv.freeBlock ((hinUse b).mpr (.inl happlies.1)) hfree with
          hreturned | ⟨-, -, hsame⟩
        · exact (hreturned.inUse q).mpr ⟨(hinUse q).mpr (.inr rfl), hqb⟩
        · exact (hsame.inUse q).mpr ((hinUse q).mpr (.inr rfl))
      exact absurd ((huntouched.inUse q).mp hq) hnotIn

/-! ## Lookups -/

theorem movePointer_eq {levelPtr idx : ℕ} {bp : ℕ}
    (h : (Fs.movePointer sb levelPtr idx q).map (Sb.pmfsGetBlockOff q, ·) = some (bp, sb')) :
    bp = Sb.pmfsGetBlockOff q := by
  obtain ⟨_, -, heq⟩ := Option.map_eq_some_iff.mp h
  cases heq
  rfl

theorem not_withdraws_tired {levelPtr idx : ℕ} (happlies : (tired levelPtr idx).Applies s)
    (hblocked : Blocked o s (tired levelPtr idx)) : ¬Withdraws o o' s (tired levelPtr idx) := by
  intro hwithdraws
  obtain ⟨b, hpfn, hne, htired⟩ := happlies
  obtain ⟨e, sb, hnew⟩ := hblocked.resolve_right id
  -- one of two numbers on the stack leads away from the old block
  have hjunk : ∃ junk, Sb.pmfsGetBlockOff junk ≠ s.sb.word levelPtr idx := by
    by_cases h : Sb.pmfsGetBlockOff 1 = s.sb.word levelPtr idx
    · exact ⟨2, fun h' => absurd (h.trans h'.symm) (by decide)⟩
    · exact ⟨1, h⟩
  obtain ⟨junk, hjunk⟩ := hjunk
  obtain ⟨r, hrun, huntouched⟩ := hwithdraws junk
  have hfound := huntouched.found levelPtr idx rfl
  obtain ⟨⟨bp, t⟩, ht, rfl⟩ := Option.map_eq_some_iff.mp hrun
  unfold Fs.wpmfsRetrieveDatablk at ht
  dsimp only at ht hfound
  rw [if_neg hne, hpfn] at ht
  dsimp only at ht
  rw [if_pos htired, Fs.wpmfsReplaceTiredPage, hnew] at ht
  cases e with
  | enomem =>
    cases ht
    exact hne hfound.symm
  | enospc => exact hjunk ((movePointer_eq ht).symm.trans hfound)

/-- A device of two blocks, both allocated: the block 1 is tired, behind the slot 0, and holds a
pointer to itself. -/
def full (wear : Bool) : Fs where
  sb :=
    { alloc := .start wear 1 2 4 8192 fun _ => ⟨true, true, true, false⟩
      words := fun _ _ => 4096
      pageIndex := fun _ => 0
      area := fun _ => ⟨fun _ => 1, fun _ => 1, fun _ => some 1, 1⟩ }
  inode _ := none
  freeing _ := false
  mapping _ := none
  transHuge _ := false
  iPages _ _ := none

theorem inv_full {wear : Bool} : (full wear).sb.alloc.Inv 1 2 :=
  Factory.inv_start (by decide) (by decide) (by decide) (by decide)

theorem applies_vmap_full {wear : Bool} : (vmap 1).Applies (full wear) := by
  refine ⟨Factory.start_inUse.mpr (by decide), ?_⟩
  cases wear <;> rfl

end Migration

end Wpmfs.Migrate
