import Mathlib.Algebra.Order.Ring.Int
import Mathlib.Algebra.Order.Ring.Nat
import Mathlib.Data.List.Forall2
import Wpmfs.Library.Assoc
import Wpmfs.Dir.Tiling

/-!
# The names in a directory

The live entries of a directory bind names to inode numbers. Adding and removing an entry is first
described by what it does to the entries of one block (`Inserts`, `Unlinks`), then by what it does
to the bindings: a binding is added, or taken away, and all others stay.
-/

namespace Wpmfs.Dir

open Bytes

def Dirent.binding (e : Dirent) : List (Name × ℕ) := if e.ino = 0 then [] else [(e.name, e.ino)]

/-- What the live entries of a block bind. -/
def bindings (es : List Dirent) : List (Name × ℕ) := es.flatMap Dirent.binding

/-- What the live entries of a directory bind. -/
def contents (ess : List (List Dirent)) : List (Name × ℕ) := ess.flatMap bindings

/-- The blocks of a directory, each filled by its entries. -/
abbrev Tiled (blocks : List Block) (ess : List (List Dirent)) : Prop :=
  List.Forall₂ (fun b es => Tiles b 0 es blockSize) blocks ess

/-- A name is put into an entry with room for it. -/
inductive Inserts (name : Name) (inode : ℕ) : List Dirent → List Dirent → Prop
  | mk (pre post : List Dirent) (e : Dirent) (hroom : e.HasRoom (pmfsDirRecLen name.length)) :
      Inserts name inode (pre ++ e :: post) (pre ++ e.split name inode ++ post)

/-- The live entry of a name goes: the entry before it takes its bytes, or it becomes unused. -/
inductive Unlinks (name : Name) : List Dirent → List Dirent → Prop
  | merge (pre post : List Dirent) (p e : Dirent) (hlive : e.ino ≠ 0) (hname : e.name = name) :
      Unlinks name (pre ++ p :: e :: post) (pre ++ { p with len := p.len + e.len } :: post)
  | head (post : List Dirent) (e : Dirent) (hlive : e.ino ≠ 0) (hname : e.name = name) :
      Unlinks name (e :: post) ({ e with ino := 0 } :: post)

/-- The live entry of a name gets another inode number. -/
inductive Retargets (name : Name) (inode : ℕ) : List Dirent → List Dirent → Prop
  | mk (pre post : List Dirent) (e : Dirent) (hlive : e.ino ≠ 0) (hname : e.name = name) :
      Retargets name inode (pre ++ e :: post) (pre ++ { e with ino := inode } :: post)

/-- One block of a directory changes. -/
inductive OneBlock (R : List Dirent → List Dirent → Prop) :
    List (List Dirent) → List (List Dirent) → Prop
  | here {es es' : List Dirent} (ess : List (List Dirent)) (h : R es es') :
      OneBlock R (es :: ess) (es' :: ess)
  | there {ess ess' : List (List Dirent)} (es : List Dirent) (h : OneBlock R ess ess') :
      OneBlock R (es :: ess) (es :: ess')

/-- A name is put into a block, or into a block of its own. -/
inductive Added (name : Name) (inode : ℕ) : List (List Dirent) → List (List Dirent) → Prop
  | inPlace {ess ess' : List (List Dirent)} (h : OneBlock (Inserts name inode) ess ess') :
      Added name inode ess ess'
  | grown (ess : List (List Dirent)) :
      Added name inode ess (ess ++ [[⟨inode, blockSize, name⟩]])

variable {b : Block} {blocks blocks' : List Block} {dir : DirInode} {inode k de i j : ℕ}
  {name child : Name} {e : Dirent} {es es' : List Dirent} {ess ess' : List (List Dirent)}

theorem mem_bindings :
    (name, i) ∈ bindings es ↔ ∃ e ∈ es, e.ino ≠ 0 ∧ e.name = name ∧ e.ino = i := by
  simp only [bindings, List.mem_flatMap, Dirent.binding]
  refine exists_congr fun e => and_congr_right fun _ => ?_
  split <;> simp_all [eq_comm]

theorem mem_contents :
    (name, i) ∈ contents ess ↔ ∃ es ∈ ess, ∃ e ∈ es, e.ino ≠ 0 ∧ e.name = name ∧ e.ino = i := by
  simp only [contents, List.mem_flatMap, mem_bindings]

/-! ## Bindings after a change -/

theorem Inserts.perm (h : Inserts name inode es es') (hinode : inode ≠ 0) :
    (bindings es').Perm ((name, inode) :: bindings es) := by
  obtain ⟨pre, post, e, -⟩ := h
  have hsplit : bindings (e.split name inode) = e.binding ++ [(name, inode)] := by
    rw [Dirent.split, Dirent.binding]
    by_cases hlive : e.ino = 0 <;> simp [bindings, Dirent.binding, hlive, hinode]
  simp only [bindings, List.flatMap_append, List.flatMap_cons] at hsplit ⊢
  rw [hsplit, List.append_assoc, List.append_assoc, ← List.append_assoc _ e.binding,
    ← List.append_assoc _ e.binding]
  exact List.perm_middle

theorem Unlinks.perm (h : Unlinks name es es') :
    ∃ i, i ≠ 0 ∧ (bindings es).Perm ((name, i) :: bindings es') := by
  cases h with
  | merge pre post p e hlive hname =>
    refine ⟨e.ino, hlive, ?_⟩
    simp only [bindings, List.flatMap_append, List.flatMap_cons, Dirent.binding, if_neg hlive,
      hname, ← List.append_assoc]
    rw [List.append_assoc _ [_]]
    exact List.perm_middle
  | head post e hlive hname =>
    refine ⟨e.ino, hlive, ?_⟩
    simp [bindings, Dirent.binding, hlive, hname]

theorem Retargets.perm (h : Retargets name inode es es') (hinode : inode ≠ 0) :
    ∃ i l, i ≠ 0 ∧ (bindings es).Perm ((name, i) :: l) ∧
      (bindings es').Perm ((name, inode) :: l) := by
  obtain ⟨pre, post, e, hlive, hname⟩ := h
  refine ⟨e.ino, bindings pre ++ bindings post, hlive, ?_, ?_⟩
  all_goals
    simp only [bindings, List.flatMap_append, List.flatMap_cons, Dirent.binding, if_neg hlive,
      if_neg hinode, hname]
    exact List.perm_middle

theorem OneBlock.perm {R : List Dirent → List Dirent → Prop} (h : OneBlock R ess ess') :
    ∃ es es' l, R es es' ∧ (contents ess).Perm (bindings es ++ l) ∧
      (contents ess').Perm (bindings es' ++ l) := by
  induction h with
  | here ess h => exact ⟨_, _, contents ess, h, .refl _, .refl _⟩
  | @there ess ess' es _ ih =>
    obtain ⟨fs, fs', l, h, hperm, hperm'⟩ := ih
    refine ⟨fs, fs', bindings es ++ l, h, ?_, ?_⟩
    · exact (hperm.append_left _).trans (List.perm_append_comm_assoc ..)
    · exact (hperm'.append_left _).trans (List.perm_append_comm_assoc ..)

theorem Added.perm (h : Added name inode ess ess') (hinode : inode ≠ 0) :
    (contents ess').Perm ((name, inode) :: contents ess) := by
  cases h with
  | inPlace h =>
    obtain ⟨es, es', l, h, hperm, hperm'⟩ := h.perm
    exact hperm'.trans (((h.perm hinode).append_right l).trans (hperm.symm.cons _))
  | grown =>
    have hnew : contents [[⟨inode, blockSize, name⟩]] = [(name, inode)] := by
      simp [contents, bindings, Dirent.binding, hinode]
    rw [contents, List.flatMap_append, ← contents, ← contents, hnew]
    exact List.perm_append_singleton ..

theorem OneBlock.unlinks_perm (h : OneBlock (Unlinks name) ess ess') :
    ∃ i, i ≠ 0 ∧ (contents ess).Perm ((name, i) :: contents ess') := by
  obtain ⟨es, es', l, h, hperm, hperm'⟩ := h.perm
  obtain ⟨i, hi, hes⟩ := h.perm
  exact ⟨i, hi, hperm.trans ((hes.append_right l).trans (hperm'.symm.cons _))⟩

theorem OneBlock.retargets_perm (h : OneBlock (Retargets name inode) ess ess')
    (hinode : inode ≠ 0) :
    ∃ i l, i ≠ 0 ∧ (contents ess).Perm ((name, i) :: l) ∧
      (contents ess').Perm ((name, inode) :: l) := by
  obtain ⟨es, es', l, h, hperm, hperm'⟩ := h.perm
  obtain ⟨i, k, hi, hes, hes'⟩ := h.perm hinode
  exact ⟨i, k ++ l, hi, hperm.trans (hes.append_right l), hperm'.trans (hes'.append_right l)⟩

theorem OneBlock.ne_nil {R : List Dirent → List Dirent → Prop} (h : OneBlock R ess ess') :
    ess' ≠ [] := by
  cases h <;> exact List.cons_ne_nil _ _

theorem Added.ne_nil (h : Added name inode ess ess') : ess' ≠ [] := by
  cases h with
  | inPlace h => exact h.ne_nil
  | grown => exact List.append_ne_nil_of_right_ne_nil _ (List.cons_ne_nil _ _)

/-! ## The functions on tiled blocks -/

theorem Tiles.of_mem (h : Tiles b de es k) (he : e ∈ es) :
    e.Fits ∧ e.name.length ≤ pmfsNameLen := by
  induction es generalizing de with
  | nil => cases he
  | cons x es ih =>
    obtain ⟨rfl, hfits, htail⟩ := h
    rcases List.mem_cons.mp he with rfl | he
    · refine ⟨hfits, ?_⟩
      rw [length_name_direntAt]
      exact Nat.le_of_lt_succ readLE_lt
    · exact ih htail he

theorem Tiled.unique (h : Tiled blocks ess) (h' : Tiled blocks ess') : ess = ess' := by
  induction h generalizing ess' with
  | nil =>
    cases h'
    rfl
  | cons hb _ ih =>
    cases h' with
    | cons hb' hbs' => rw [hb.unique hb', ih hbs']

theorem Tiled.exists_tiles (h : Tiled blocks ess) (hes : es ∈ ess) :
    ∃ b, Tiles b 0 es blockSize := by
  induction h with
  | nil => cases hes
  | cons hb _ ih =>
    rcases List.mem_cons.mp hes with rfl | hes
    · exact ⟨_, hb⟩
    · exact ih hes

theorem Tiled.exists_entries (h : Tiled blocks ess) (hb : b ∈ blocks) :
    ∃ es, Tiles b 0 es blockSize := by
  induction h with
  | nil => cases hb
  | cons hc _ ih =>
    rcases List.mem_cons.mp hb with rfl | hb
    · exact ⟨_, hc⟩
    · exact ih hb

/-- The names in a directory have 1 to 255 bytes. -/
theorem length_of_mem_contents (h : Tiled blocks ess) (hmem : (name, i) ∈ contents ess) :
    0 < name.length ∧ name.length ≤ pmfsNameLen := by
  obtain ⟨es, hes, e, he, hlive, rfl, -⟩ := mem_contents.mp hmem
  obtain ⟨b, htiles⟩ := Tiled.exists_tiles h hes
  obtain ⟨hfits, hle⟩ := htiles.of_mem he
  exact ⟨List.length_pos_iff.mpr (hfits.named hlive), hle⟩

theorem addToBlocks_spec (h : Tiled blocks ess) (hne : name ≠ [])
    (hname : name.length ≤ pmfsNameLen) (hinode : inode < 2 ^ 64) :
    addToBlocks name inode blocks = some (.error .enospc) ∨
    ∃ blocks' ess', addToBlocks name inode blocks = some (.ok blocks') ∧ Tiled blocks' ess' ∧
      OneBlock (Inserts name inode) ess ess' := by
  have hpos := add_le_pmfsDirRecLen name.length
  induction h with
  | nil => exact .inl rfl
  | @cons b es bs ess hb hbs ih =>
    rw [addToBlocks, pmfsAddDirentToBuf]
    rcases findRoom_spec hb (show 0 < pmfsDirRecLen name.length by omega) with
      ⟨pre, e, post, rfl, hroom, hfind⟩ | hfind
    · have hins := hb.insertDirent hroom hne hname hinode
      rw [Nat.zero_add] at hfind hins
      rw [hfind]
      exact .inr ⟨_, _, rfl, .cons hins hbs, .here _ ⟨pre, post, e, hroom⟩⟩
    · rw [hfind]
      rcases ih with ih | ⟨blocks', ess', ih, htiled, hone⟩
      · exact .inl (by simp [ih, Except.map])
      · refine .inr ⟨b :: blocks', es :: ess', ?_, .cons hb htiled, .there _ hone⟩
        simp [ih, Except.map]

/-- A block that was just allocated is one unused entry; the name fills it. -/
theorem tiles_fresh (hne : name ≠ []) (hname : name.length ≤ pmfsNameLen)
    (hinode : inode < 2 ^ 64) :
    Tiles (insertDirent (setDeLen (setIno b 0 0) 0 blockSize) 0 name inode) 0
      [⟨inode, blockSize, name⟩] blockSize := by
  have hlen := pmfsDirRecLen_le hname
  have hold : (direntAt b 0).name.length ≤ pmfsNameLen := by
    rw [length_name_direntAt]
    exact Nat.le_of_lt_succ readLE_lt
  have hat : direntAt (setDeLen (setIno b 0 0) 0 blockSize) 0 =
      ⟨0, blockSize, (direntAt b 0).name⟩ := by
    rw [direntAt_setDeLen (by unfold blockSize; omega), direntAt_setIno (by omega)]
  generalize setDeLen (setIno b 0 0) 0 blockSize = c at hat ⊢
  have hde : deLen c 0 = blockSize := by rw [← direntAt_len, hat]
  have hfits : (direntAt c 0).Fits := by
    rw [hat]
    refine ⟨?_, ?_, (pmfsDirRecLen_le hold).trans ?_, fun h => absurd rfl h⟩
    · dsimp only [blockSize]
    · dsimp only [blockSize, pmfsDirRecLen_one]
      omega
    · dsimp only [blockSize]
      omega
  have hroom : (direntAt c 0).HasRoom (pmfsDirRecLen name.length) := by
    rw [hat, Dirent.HasRoom, Dirent.used, if_neg (by simp)]
    dsimp only [blockSize]
    omega
  have hsmall : deLen c 0 < 2 ^ 16 := by
    rw [hde, blockSize]
    omega
  have htiles := tiles_split hfits hroom hne hname hinode hsmall
  rwa [hat, hde, Dirent.split, if_neg (by simp), Nat.zero_add] at htiles

/-- `pmfs_add_entry` puts the name into the directory, or fails when a block is needed and there is
none. -/
theorem pmfsAddEntry_spec (alloc : Except Errno Block) (h : Tiled dir.blocks ess) (hne : name ≠ [])
    (hname : name.length ≤ pmfsNameLen) (hinode : inode < 2 ^ 64) :
    (∃ e, alloc = .error e ∧ pmfsAddEntry dir name inode alloc = some (.error e)) ∨
    ∃ blocks ess', pmfsAddEntry dir name inode alloc = some (.ok { dir with blocks := blocks }) ∧
      Tiled blocks ess' ∧ Added name inode ess ess' := by
  unfold pmfsAddEntry
  rw [if_neg (by simpa using hne)]
  rcases addToBlocks_spec h hne hname hinode with hadd | ⟨blocks, ess', hadd, htiled, hone⟩
  · rw [hadd]
    cases alloc with
    | error e => exact .inl ⟨e, rfl, rfl⟩
    | ok b =>
      exact .inr ⟨_, _, rfl, List.rel_append h (.cons (tiles_fresh hne hname hinode) .nil),
        .grown ess⟩
  · rw [hadd]
    exact .inr ⟨blocks, ess', rfl, htiled, .inPlace hone⟩

theorem removeFromBlocks_spec (name : Name) (h : Tiled blocks ess) :
    (removeFromBlocks name blocks = none ∧ ∀ i, (name, i) ∉ contents ess) ∨
    ∃ blocks' ess', removeFromBlocks name blocks = some blocks' ∧ Tiled blocks' ess' ∧
      OneBlock (Unlinks name) ess ess' := by
  induction h with
  | nil => exact .inl ⟨rfl, by simp [contents]⟩
  | @cons b es bs ess hb hbs ih =>
    rw [removeFromBlocks, pmfsSearchDirblock]
    rcases searchFrom_spec name none hb with
      ⟨pre, e, post, rfl, hlive, hname, hfound⟩ | ⟨hno, hfound⟩
    · rw [hfound]
      rcases pre.eq_nil_or_concat with rfl | ⟨pre, p, rfl⟩
      · rw [List.nil_append] at hb
        exact .inr ⟨_, _, rfl, .cons hb.unlinkDirent_none hbs, .here _ (.head post e hlive hname)⟩
      · rw [List.concat_eq_append] at hb ⊢
        rw [prevOf_concat, span_append, span_cons, span_nil, Nat.add_zero, ← Nat.add_assoc]
        rw [List.append_assoc, List.singleton_append] at hb ⊢
        exact .inr ⟨_, _, rfl, .cons hb.unlinkDirent_some hbs,
          .here _ (.merge pre post p e hlive hname)⟩
    · rw [hfound]
      rcases ih with ⟨ih, hout⟩ | ⟨blocks', ess', ih, htiled, hone⟩
      · refine .inl ⟨by simp [ih], fun i hmem => ?_⟩
        rw [contents, List.flatMap_cons, List.mem_append, mem_bindings] at hmem
        rcases hmem with ⟨e, he, hlive, hname, -⟩ | hmem
        · exact hno e he hlive hname
        · exact hout i hmem
      · exact .inr ⟨b :: blocks', es :: ess', by simp [ih], .cons hb htiled, .there _ hone⟩

/-- `pmfs_remove_entry` takes the name out of the directory, or fails when it is not there. -/
theorem pmfsRemoveEntry_spec (name : Name) (h : Tiled dir.blocks ess) :
    (pmfsRemoveEntry dir name = .error .einval ∧ ∀ i, (name, i) ∉ contents ess) ∨
    ∃ blocks ess', pmfsRemoveEntry dir name = .ok { dir with blocks := blocks } ∧
      Tiled blocks ess' ∧ OneBlock (Unlinks name) ess ess' := by
  rw [pmfsRemoveEntry]
  by_cases hname : name.length = 0
  · rw [if_pos hname]
    exact .inl ⟨rfl, fun i hmem => (length_of_mem_contents h hmem).1.ne' hname⟩
  · rw [if_neg hname]
    rcases removeFromBlocks_spec name h with ⟨hremove, hno⟩ | ⟨blocks, ess', hremove, htiled, hone⟩
    · rw [hremove]
      exact .inl ⟨rfl, hno⟩
    · rw [hremove]
      exact .inr ⟨blocks, ess', rfl, htiled, hone⟩

end Wpmfs.Dir
