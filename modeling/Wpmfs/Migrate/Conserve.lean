import Wpmfs.Migrate.Blocked

/-!
# What a migration does to the free blocks

A migration that succeeds takes one block from the allocator. It leaves as many free blocks as there
were if it gives the old one back.
-/

namespace Wpmfs.Migrate

open Balloc Vmap

namespace Migration

/-- `_level_type_stranded` of the page of the block `b`. -/
def levelTypeStranded (s : Fs) (b : ℕ) : Fs :=
  if (s.sb.marks b).pageUsing then
    s.setSb { s.sb with alloc := s.sb.alloc.markPage b { s.sb.marks b with pageTired := true } }
  else s

variable {s t : Fs} {m : Migration} {o o' : Surroundings} {b q lo hi junk : ℕ} {sb sb' : Sb}

/-- The migration takes the page of the block `b` to the block `q`. -/
def Moves (o : Surroundings) (s : Fs) (b q : ℕ) (m : Migration) : Prop :=
  ∃ sb, s.sb.newBlock o = (.ok q, sb) ∧
    match m with
    | rmap b' => b' = b ∧ m.Applies s ∧ ∃ t, (s.setSb sb).levelTypeRmapCore b q = some (true, t)
    | vmap b' => b' = b ∧ m.Applies s ∧
        (s.sb.area (Sb.regionOf (s.sb.marks b))).pte (s.sb.pageIndex b) ≠ none
    | tired levelPtr idx => s.sb.wpmfsGetPfn (s.sb.word levelPtr idx) = some b ∧ m.Applies s

/-- The old block is out, the new one is in, and as many blocks are free as before. -/
structure Conserves (s : Fs) (b q : ℕ) (t : Fs) : Prop where
  inUse : ∀ x, t.sb.alloc.InUse x ↔ s.sb.alloc.InUse x ∧ x ≠ b ∨ x = q
  free : t.sb.alloc.numFreeBlocks = s.sb.alloc.numFreeBlocks

/-- The allocator takes the old block back: a lookup does not try, and the range list may miss a
node. -/
def GivesBack (o o' : Surroundings) (s : Fs) (b q : ℕ) : Migration → Prop
  | tired _ _ => False
  | _ => ∃ sb sb', s.sb.newBlock o = (.ok q, sb) ∧ sb.freeBlock o' b = some sb' ∧ ¬sb'.alloc.InUse b

/-- The page marks do not matter to a block that is given back. -/
theorem freeBlock_markPage {a a' : Factory} {marks : PageMarks}
    (h : (a.markPage q marks).freeBlock o b = some a') :
    ∃ a₁, a.freeBlock o b = some a₁ ∧ (a₁.InUse b ↔ a'.InUse b) := by
  cases a with
  | wear r =>
    obtain ⟨r', hcall, rfl⟩ := Option.map_eq_some_iff.mp h
    obtain ⟨sbi, hsbi, rfl⟩ := Option.map_eq_some_iff.mp hcall
    unfold BinAlloc.wpmfsFreeBlock at hsbi
    dsimp only at hsbi
    split at hsbi
    · cases hsbi
    · rename_i hbin
      have hsome : ∃ sbi', r.sbi.wpmfsFreeBlock o.power o.cnter b .b4K = some sbi' :=
        ⟨_, if_neg hbin⟩
      obtain ⟨sbi', hsbi'⟩ := hsome
      refine ⟨.wear ⟨sbi', r.allocated.erase b, r.clock + 1, Function.update r.freedAt b r.clock⟩,
        ?_, Iff.rfl⟩
      rw [Factory.freeBlock, BinRun.call, hsbi']
      rfl
  | ranges r pageMarks =>
    obtain ⟨p, hp, rfl⟩ := Option.map_eq_some_iff.mp h
    exact ⟨_, Option.map_eq_some_iff.mpr ⟨p, hp, rfl⟩, Iff.rfl⟩

/-- One block is taken and another one given back. -/
theorem conserved_iff {a a₁ a₂ a₃ : Factory} (h : a.Inv lo hi) (hnew : a.newBlock o = (.ok q, a₁))
    (hinv : a₂.Inv lo hi) (hinUse : ∀ x, a₂.InUse x ↔ a₁.InUse x)
    (hcount : a₂.numFreeBlocks = a₁.numFreeBlocks) (hb : a.InUse b)
    (hfree : a₂.freeBlock o' b = some a₃) :
    ((∀ x, a₃.InUse x ↔ a.InUse x ∧ x ≠ b ∨ x = q) ∧ a₃.numFreeBlocks = a.numFreeBlocks) ↔
      ¬a₃.InUse b := by
  have hhanded := h.newBlock hnew
  have htaken := h.newBlock_count hnew
  have hqb : q ≠ b := fun hqb => h.disjoint hhanded.was (hqb ▸ hb)
  have hb₂ : a₂.InUse b := (hinUse b).mpr ((hhanded.inUse b).mpr (.inl hb))
  constructor
  · rintro ⟨hafter, -⟩ hin
    rcases (hafter b).mp hin with ⟨-, hne⟩ | hbq
    · exact hne rfl
    · exact hqb hbq.symm
  · intro hout
    rcases hinv.freeBlock_count hb₂ hfree with ⟨hin, -⟩ | ⟨-, hgiven⟩
    · exact absurd hin hout
    · refine ⟨fun x => ?_, by omega⟩
      rcases hinv.freeBlock hb₂ hfree with hreturned | ⟨-, -, hsame⟩
      · rw [hreturned.inUse, hinUse, hhanded.inUse]
        constructor
        · rintro ⟨hx | rfl, hne⟩
          · exact .inl ⟨hx, hne⟩
          · exact .inr rfl
        · rintro (⟨hx, hne⟩ | rfl)
          · exact ⟨.inl hx, hne⟩
          · exact ⟨.inr rfl, hqb⟩
      · exact absurd ((hsame.inUse b).mpr hb₂) hout

theorem conserves_iff_of_free (h : s.sb.alloc.Inv lo hi) (hnew : s.sb.newBlock o = (.ok q, sb))
    {u : Sb} (hu : u.alloc = sb.alloc ∨ ∃ marks, u.alloc = sb.alloc.markPage q marks)
    (hb : s.sb.alloc.InUse b) (hfree : u.freeBlock o' b = some t.sb) :
    Conserves s b q t ↔
      ∃ sb sb', s.sb.newBlock o = (.ok q, sb) ∧ sb.freeBlock o' b = some sb' ∧
        ¬sb'.alloc.InUse b := by
  obtain ⟨-, halloc⟩ := newBlock_eq hnew
  obtain ⟨-, hfree'⟩ := freeBlock_eq hfree
  have hinv := (h.newBlock halloc).inv
  have hinv' : u.alloc.Inv lo hi := by
    rcases hu with hu | ⟨marks, hu⟩
    · exact hu ▸ hinv
    · exact hu ▸ hinv.markPage
  have hiff := conserved_iff h halloc hinv' (fun x => by rcases hu with hu | ⟨marks, hu⟩ <;> simp [hu])
    (by rcases hu with hu | ⟨marks, hu⟩ <;> simp [hu]) hb hfree'
  have hback : ∃ a₁, sb.alloc.freeBlock o' b = some a₁ ∧ (a₁.InUse b ↔ t.sb.alloc.InUse b) := by
    rcases hu with hu | ⟨marks, hu⟩
    · exact ⟨_, hu ▸ hfree', Iff.rfl⟩
    · exact freeBlock_markPage (hu ▸ hfree')
  obtain ⟨a₁, ha₁, hsame⟩ := hback
  constructor
  · rintro ⟨hinUse, hcount⟩
    refine ⟨sb, { sb with alloc := a₁ }, hnew, by rw [Sb.freeBlock, ha₁]; rfl, ?_⟩
    exact fun hin => hiff.mp ⟨hinUse, hcount⟩ (hsame.mp hin)
  · rintro ⟨sb₁, sb₂, hnew₁, hfree₁, hout⟩
    obtain rfl : sb = sb₁ := (Prod.mk.inj (hnew.symm.trans hnew₁)).2
    obtain ⟨-, hfree₁⟩ := freeBlock_eq hfree₁
    obtain rfl := Option.some.inj (ha₁.symm.trans hfree₁)
    obtain ⟨hinUse, hcount⟩ := hiff.mpr fun hin => hout (hsame.mpr hin)
    exact ⟨hinUse, hcount⟩

/-- What a lookup takes is not given back. -/
theorem count_tired {levelPtr idx : ℕ} (h : s.sb.alloc.Inv lo hi)
    (hmoves : (tired levelPtr idx).Moves o s b q)
    {r : ℕ × Fs} (hrun : (tired levelPtr idx).run o o' junk s = some r) :
    r.2.sb.alloc.numFreeBlocks + 1 = s.sb.alloc.numFreeBlocks := by
  obtain ⟨sb, hnew, hpfn, b', hpfn', hne, htired⟩ := hmoves
  obtain ⟨⟨bp, t⟩, ht, rfl⟩ := Option.map_eq_some_iff.mp hrun
  obtain ⟨-, halloc⟩ := newBlock_eq hnew
  unfold Fs.wpmfsRetrieveDatablk at ht
  dsimp only at ht
  rw [if_neg hne, hpfn'] at ht
  dsimp only at ht
  rw [if_pos htired, Fs.wpmfsReplaceTiredPage, hnew] at ht
  obtain ⟨u, hu, heq⟩ := Option.map_eq_some_iff.mp ht
  cases heq
  rw [Fs.setSb, movePointer_alloc hu]
  exact h.newBlock_count halloc

/-- Outside of lookups the last step of a migration frees the old block. -/
theorem Moves.frees (hmoves : m.Moves o s b q) {r : ℕ × Fs} (hrun : m.run o o' junk s = some r)
    (hm : ∀ levelPtr idx, m ≠ tired levelPtr idx) :
    ∃ sb u : Sb, s.sb.newBlock o = (.ok q, sb) ∧
      (u.alloc = sb.alloc ∨ ∃ marks, u.alloc = sb.alloc.markPage q marks) ∧
      s.sb.alloc.InUse b ∧ u.freeBlock o' b = some r.2.sb := by
  cases m with
  | tired levelPtr idx => exact absurd rfl (hm levelPtr idx)
  | rmap b' =>
    obtain ⟨sb, hnew, rfl, happlies, t, ht⟩ := hmoves
    rw [run_rmap happlies, hnew] at hrun
    obtain ⟨u, hu, rfl⟩ := Option.map_eq_some_iff.mp hrun
    dsimp only at hu
    rw [Fs.rmapTo, ht] at hu
    obtain ⟨sb', hfree, rfl⟩ := Option.map_eq_some_iff.mp hu
    exact ⟨sb, t.sb, hnew, .inl (core_alloc ht), happlies.1, hfree⟩
  | vmap b' =>
    obtain ⟨sb, hnew, rfl, happlies, -⟩ := hmoves
    obtain ⟨t, ht, rfl⟩ := Option.map_eq_some_iff.mp hrun
    rw [Sb.levelTypeVmap, hnew] at ht
    obtain ⟨u, hu, hfree⟩ := migrateTo_free ht
    exact ⟨sb, u, hnew, .inr ⟨_, hu⟩, happlies.1, hfree⟩

/-- A migration that succeeds conserves the free blocks if and only if it gives its old block back.
-/
theorem conserves_iff_givesBack (h : s.sb.alloc.Inv lo hi) (hmoves : m.Moves o s b q)
    {r : ℕ × Fs} (hrun : m.run o o' junk s = some r) :
    Conserves s b q r.2 ↔ m.GivesBack o o' s b q := by
  cases m with
  | tired levelPtr idx =>
    have hcount := count_tired h hmoves hrun
    exact ⟨fun hconserves => by have := hconserves.free; omega, False.elim⟩
  | rmap b' =>
    obtain ⟨sb, u, hnew, hu, hb, hfree⟩ := hmoves.frees hrun nofun
    exact conserves_iff_of_free h hnew hu hb hfree
  | vmap b' =>
    obtain ⟨sb, u, hnew, hu, hb, hfree⟩ := hmoves.frees hrun nofun
    exact conserves_iff_of_free h hnew hu hb hfree

theorem GivesBack.inv (h : s.sb.alloc.Inv lo hi) (hmoves : m.Moves o s b q)
    {r : ℕ × Fs} (hrun : m.run o o' junk s = some r) (hback : m.GivesBack o o' s b q) :
    r.2.sb.alloc.Inv lo hi := by
  obtain ⟨sb, u, hnew, hu, hb, hfree⟩ := hmoves.frees hrun fun levelPtr idx hm => by
    rw [hm] at hback
    exact hback
  obtain ⟨-, halloc⟩ := newBlock_eq hnew
  obtain ⟨-, hfree⟩ := freeBlock_eq hfree
  have hhanded := h.newBlock halloc
  have hinv : u.alloc.Inv lo hi := by
    rcases hu with hu | ⟨marks, hu⟩
    · exact hu ▸ hhanded.inv
    · exact hu ▸ hhanded.inv.markPage
  have hb' : u.alloc.InUse b := by
    rcases hu with hu | ⟨marks, hu⟩ <;> simp [hu, hhanded.inUse, hb]
  rcases hinv.freeBlock hb' hfree with hreturned | ⟨-, -, hsame⟩
  · exact hreturned.inv
  · exact hsame.inv

/-- Events of hot pages: migrations that succeed and give back their block, and pages that are
marked for the next lookup. -/
inductive Step : Fs → Fs → Prop where
  | stranded {s : Fs} (b : ℕ) : Step s (levelTypeStranded s b)
  | moved {s : Fs} {m : Migration} {o o' : Surroundings} {b q junk : ℕ} {r : ℕ × Fs}
      (moves : m.Moves o s b q) (back : m.GivesBack o o' s b q)
      (run : m.run o o' junk s = some r) : Step s r.2

def Reaches : Fs → Fs → Prop := Relation.ReflTransGen Step

theorem Step.conserves (h : s.sb.alloc.Inv lo hi) (hstep : Step s t) :
    t.sb.alloc.Inv lo hi ∧ t.sb.alloc.numFreeBlocks = s.sb.alloc.numFreeBlocks := by
  cases hstep with
  | stranded b =>
    rw [levelTypeStranded]
    split
    · exact ⟨h.markPage, Factory.markPage_numFreeBlocks⟩
    · exact ⟨h, rfl⟩
  | moved hmoves hback hrun =>
    exact ⟨hback.inv h hmoves hrun, ((conserves_iff_givesBack h hmoves hrun).mpr hback).free⟩

theorem Reaches.conserves (h : s.sb.alloc.Inv lo hi) (hreaches : Reaches s t) :
    t.sb.alloc.Inv lo hi ∧ t.sb.alloc.numFreeBlocks = s.sb.alloc.numFreeBlocks := by
  induction hreaches with
  | refl => exact ⟨h, rfl⟩
  | tail _ hstep ih =>
    obtain ⟨hinv, hcount⟩ := hstep.conserves ih.1
    exact ⟨hinv, hcount.trans ih.2⟩

/-- A device of three blocks. The block 1 is tired and behind a pointer of its own, the block 2 is
free. -/
def spare (wear : Bool) : Fs where
  sb :=
    { alloc := .start wear 1 3 2 8192 fun _ => ⟨true, true, true, false⟩
      words := fun _ _ => 4096
      pageIndex := fun _ => 0
      area := fun _ => ⟨fun _ => 1, fun _ => 1, fun _ => some 1, 1⟩ }
  inode _ := none
  freeing _ := false
  mapping _ := none
  transHuge _ := false
  iPages _ _ := none

theorem inv_spare {wear : Bool} : (spare wear).sb.alloc.Inv 1 3 :=
  Factory.inv_start (by decide) (by decide) (by decide) (by decide)

end Migration

end Wpmfs.Migrate
