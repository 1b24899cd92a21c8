import Mathlib.Algebra.Order.Ring.Int
import Mathlib.Algebra.Order.Ring.Nat
import Mathlib.Logic.Relation
import Wpmfs.Dir.Contents

/-!
# A directory is a map from names to inode numbers

The lookup finds the binding of a name from wherever its hint lets it start
(`pmfsInodeByName_spec`). A run of additions and removals on a directory that was just made keeps
the blocks tiled and changes the bindings as a map changes.
-/

namespace Wpmfs.Dir

open Bytes Assoc

section

variable {b : Block} {blocks : List Block} {dir dir' : DirInode} {inode i k de iIno parent : ℕ}
  {nblocks start fuel block : ℕ} {name : Name} {e : Dirent} {es : List Dirent}
  {ess ess' : List (List Dirent)} {m : Name → Option ℕ}

/-! ## Lookup -/

/-- The entry `e` lies in block `k` at offset `de`. -/
def EntryAt (ess : List (List Dirent)) (k de : ℕ) (e : Dirent) : Prop :=
  ∃ pre post, ess[k]? = some (pre ++ e :: post) ∧ de = span pre

/-- Block `k` does not bind the name. -/
def Absent (ess : List (List Dirent)) (name : Name) (k : ℕ) : Prop :=
  ∀ es, ess[k]? = some es → ∀ e ∈ es, e.ino ≠ 0 → e.name ≠ name

theorem Tiled.getElem? (h : Tiled blocks ess) (hk : blocks[k]? = some b) :
    ∃ es, ess[k]? = some es ∧ Tiles b 0 es blockSize := by
  induction h generalizing k with
  | nil => simp at hk
  | @cons c es bs ess hc _ ih =>
    cases k with
    | zero =>
      obtain rfl : c = b := by simpa using hk
      exact ⟨es, rfl, hc⟩
    | succ k => exact ih (by simpa using hk)

theorem Tiled.ino_eq (h : Tiled blocks ess) (hat : EntryAt ess k de e) :
    ino (blocks.getD k fun _ => 0) de = e.ino := by
  obtain ⟨pre, post, hget, rfl⟩ := hat
  have hlt : k < blocks.length := by
    rw [h.length_eq]
    exact (List.getElem?_eq_some_iff.mp hget).1
  obtain ⟨es, hes, htiles⟩ := Tiled.getElem? h (List.getElem?_eq_getElem hlt)
  obtain rfl : es = pre ++ e :: post := by simpa [hes] using hget
  rw [List.getD_eq_getElem?_getD, List.getElem?_eq_getElem hlt, Option.getD_some]
  rw [tiles_append, Nat.zero_add] at htiles
  rw [← htiles.2.1, direntAt_ino]

theorem pmfsSearchDirblock_spec (name : Name) (h : Tiled blocks ess) (hk : blocks[k]? = some b) :
    (∃ de e prev, pmfsSearchDirblock b name = .found de prev ∧ EntryAt ess k de e ∧ e.ino ≠ 0 ∧
      e.name = name) ∨
    (pmfsSearchDirblock b name = .notFound ∧ Absent ess name k) := by
  obtain ⟨es, hes, htiles⟩ := Tiled.getElem? h hk
  rcases searchFrom_spec name none htiles with
    ⟨pre, e, post, rfl, hlive, hname, hfound⟩ | ⟨hno, hfound⟩
  · rw [Nat.zero_add] at hfound
    exact .inl ⟨span pre, e, _, hfound, ⟨pre, post, hes, rfl⟩, hlive, hname⟩
  · refine .inr ⟨hfound, fun es' hes' => ?_⟩
    obtain rfl : es = es' := by simpa [hes] using hes'
    exact hno

/-- A pass visits the blocks from `block` on around to `start`, and finds the name if one of them
binds it. -/
theorem lookupPass_spec (name : Name) (fuel : ℕ) (h : Tiled blocks ess)
    (hn : nblocks ≤ blocks.length) (hs : start < nblocks) (hb : block < nblocks)
    (hf : (start ≤ block → nblocks - block + start ≤ fuel) ∧
      (block < start → start - block ≤ fuel)) :
    (∃ k de e, lookupPass blocks name nblocks start fuel block = some (.found k de) ∧
      EntryAt ess k de e ∧ e.ino ≠ 0 ∧ e.name = name) ∨
    (lookupPass blocks name nblocks start fuel block = some .exhausted ∧
      ∀ k < nblocks, (start ≤ block → block ≤ k ∨ k < start) →
        (block < start → block ≤ k ∧ k < start) → Absent ess name k) := by
  induction fuel generalizing block with
  | zero => omega
  | succ fuel ih =>
    have hget := List.getElem?_eq_getElem (hb.trans_le hn)
    rw [lookupPass, hget]
    rcases pmfsSearchDirblock_spec name h hget with
      ⟨de, e, prev, hfound, hat, hlive, hname⟩ | ⟨hfound, habsent⟩
    · exact .inl ⟨block, de, e, by simp only [hfound], hat, hlive, hname⟩
    · simp only [hfound]
      generalize hnext : (if nblocks ≤ block + 1 then 0 else block + 1) = next
      have hcases : next = 0 ∧ nblocks = block + 1 ∨ next = block + 1 ∧ block + 1 < nblocks := by
        split at hnext <;> omega
      by_cases hend : next = start
      · rw [if_pos hend]
        refine .inr ⟨rfl, fun k hk hle hlt => ?_⟩
        obtain rfl : k = block := by omega
        exact habsent
      · rw [if_neg hend]
        rcases @ih next (by omega) (by omega) with hfound | ⟨hpass, hno⟩
        · exact .inl hfound
        · refine .inr ⟨hpass, fun k hk hle hlt => ?_⟩
          rcases eq_or_ne k block with rfl | hne
          · exact habsent
          · exact hno k hk (by omega) (by omega)

theorem not_mem_contents (h : ∀ k < ess.length, Absent ess name k) : (name, i) ∉ contents ess := by
  intro hmem
  obtain ⟨es, hes, e, he, hlive, hname, -⟩ := mem_contents.mp hmem
  obtain ⟨k, hk, rfl⟩ := List.getElem_of_mem hes
  exact h k hk _ (List.getElem?_eq_getElem hk) e he hlive hname

/-- The lookup of a name gives the inode number it is bound to, or 0. -/
theorem pmfsInodeByName_spec (name : Name) (h : Tiled dir.blocks ess) (hne : ess ≠ [])
    (hf : dir.blocks.length ≤ fuel) :
    ∃ r, pmfsInodeByName fuel dir name = some r ∧
      ((∃ k de e, EntryAt ess k de e ∧ e.ino ≠ 0 ∧ e.name = name ∧
        r = ⟨e.ino, some (k, de), { dir with startLookup := k }⟩) ∨
      ((∀ i, (name, i) ∉ contents ess) ∧ r = ⟨0, none, dir⟩)) := by
  have hlen := h.length_eq
  have hpos := List.length_pos_iff.mpr hne
  rw [← hlen] at hpos
  rw [pmfsInodeByName]
  by_cases hlong : pmfsNameLen < name.length
  · rw [if_pos hlong]
    refine ⟨_, rfl, .inr ⟨fun i hmem => ?_, rfl⟩⟩
    exact absurd (length_of_mem_contents h hmem).2 (by omega)
  rw [if_neg hlong]
  dsimp only
  generalize hnb : (if isDotName name then 1 else dir.blocks.length) = nblocks
  generalize hst : (if isDotName name then 0 else
    if dir.blocks.length ≤ dir.startLookup then 0 else dir.startLookup) = start
  have hcases : nblocks ≤ dir.blocks.length ∧ start < nblocks := by
    rw [← hnb, ← hst]
    split
    · exact ⟨hpos, Nat.one_pos⟩
    · refine ⟨le_rfl, ?_⟩
      split <;> omega
  have hofPass : ∀ {k de e}, EntryAt ess k de e →
      Lookup.ofPass dir (.found k de) = ⟨e.ino, some (k, de), { dir with startLookup := k }⟩ := by
    intro k de e hat
    rw [Lookup.ofPass, Tiled.ino_eq h hat]
  rcases lookupPass_spec name fuel h hcases.1 hcases.2 hcases.2 (by omega) with
    ⟨k, de, e, hpass, hat, hlive, hname⟩ | ⟨hpass, hno⟩
  · rw [hpass]
    exact ⟨_, rfl, .inl ⟨k, de, e, hat, hlive, hname, hofPass hat⟩⟩
  · rw [hpass]
    dsimp only
    by_cases hmore : nblocks < dir.blocks.length
    · -- the name is looked for again behind the first block
      rw [if_pos hmore]
      rcases lookupPass_spec name fuel h le_rfl hpos hmore (by omega) with
        ⟨k, de, e, hpass, hat, hlive, hname⟩ | ⟨hpass, hno'⟩
      · rw [hpass]
        exact ⟨_, rfl, .inl ⟨k, de, e, hat, hlive, hname, hofPass hat⟩⟩
      · rw [hpass]
        refine ⟨_, rfl, .inr ⟨fun i => not_mem_contents fun k hk => ?_, rfl⟩⟩
        by_cases hlt : k < nblocks
        · exact hno k hlt (by omega) (by omega)
        · exact hno' k (by omega) (by omega) (by omega)
    · rw [if_neg hmore]
      refine ⟨_, rfl, .inr ⟨fun i => not_mem_contents fun k hk => ?_, rfl⟩⟩
      exact hno k (by omega) (by omega) (by omega)

/-! ## Directories as maps -/

/-- The blocks of the directory are tiled by entries, and the live ones are the map. -/
def Represents (dir : DirInode) (m : Name → Option ℕ) : Prop :=
  ∃ ess, Tiled dir.blocks ess ∧ ess ≠ [] ∧ Maps (contents ess) m

theorem Represents.lookup (h : Represents dir m) (hf : dir.blocks.length ≤ fuel) (name : Name) :
    ∃ r, pmfsInodeByName fuel dir name = some r ∧ r.iNo = (m name).getD 0 := by
  obtain ⟨ess, htiled, hne, hmaps⟩ := h
  obtain ⟨r, hr, ⟨k, de, e, ⟨pre, post, hes, rfl⟩, hlive, hname, rfl⟩ | ⟨hno, rfl⟩⟩ :=
    pmfsInodeByName_spec name htiled hne hf
  · have hmem : (name, e.ino) ∈ contents ess :=
      mem_contents.mpr ⟨_, List.mem_of_getElem? hes, e, by simp, hlive, hname, rfl⟩
    exact ⟨_, hr, by rw [(hmaps.mem_iff _ _).mp hmem, Option.getD_some]⟩
  · exact ⟨_, hr, by rw [hmaps.eq_none hno, Option.getD_none]⟩

theorem Represents.hint (h : Represents dir m) (k : ℕ) :
    Represents { dir with startLookup := k } m :=
  h

theorem Represents.add (h : Represents dir m) (b : Block) (hne : name ≠ [])
    (hlen : name.length ≤ pmfsNameLen)
    (hnew : m name = none) (hpos : inode ≠ 0) (hinode : inode < 2 ^ 64) :
    ∃ dir', pmfsAddEntry dir name inode (.ok b) = some (.ok dir') ∧
      Represents dir' (Function.update m name (some inode)) := by
  obtain ⟨ess, htiled, -, hmaps⟩ := h
  rcases pmfsAddEntry_spec (.ok b) htiled hne hlen hinode with
    ⟨e, he, -⟩ | ⟨blocks, ess', hadd, htiled', hadded⟩
  · cases he
  · exact ⟨_, hadd, ess', htiled', hadded.ne_nil, (hmaps.cons hnew).perm (hadded.perm hpos)⟩

theorem Represents.remove (h : Represents dir m) (name : Name) :
    (pmfsRemoveEntry dir name = .error .einval ∧ m name = none) ∨
    ∃ dir', pmfsRemoveEntry dir name = .ok dir' ∧
      Represents dir' (Function.update m name none) := by
  obtain ⟨ess, htiled, -, hmaps⟩ := h
  rcases pmfsRemoveEntry_spec name htiled with
    ⟨hremove, hno⟩ | ⟨blocks, ess', hremove, htiled', hone⟩
  · exact .inl ⟨hremove, hmaps.eq_none hno⟩
  · obtain ⟨i, -, hperm⟩ := hone.unlinks_perm
    exact .inr ⟨_, hremove, ess', htiled', hone.ne_nil, (hmaps.perm hperm.symm).of_cons⟩

/-- What a directory binds when it is made. -/
def mkdirMap (iIno parent : ℕ) : Name → Option ℕ :=
  Function.update (Function.update (fun _ => none) dotdot (some parent)) dot (some iIno)

theorem maps_mkdir {len : ℕ} (hi : iIno ≠ 0) (hp : parent ≠ 0) :
    Maps (contents [[⟨iIno, pmfsDirRecLen 1, dot⟩, ⟨parent, len, dotdot⟩]])
      (mkdirMap iIno parent) := by
  have hcontents : contents [[⟨iIno, pmfsDirRecLen 1, dot⟩, ⟨parent, len, dotdot⟩]] =
      [(dot, iIno), (dotdot, parent)] := by
    simp [contents, bindings, Dirent.binding, hi, hp]
  rw [hcontents]
  exact (maps_nil.cons rfl).cons (Function.update_of_ne (by decide) ..)

theorem represents_mkdirDir (hi : iIno ≠ 0) (hi' : iIno < 2 ^ 64) (hp : parent ≠ 0)
    (hp' : parent < 2 ^ 64) : Represents (mkdirDir iIno parent b) (mkdirMap iIno parent) :=
  ⟨_, .cons (tiles_mkdirBlock hi' hp') .nil, by simp, maps_mkdir hi hp⟩

end

/-! ## Runs -/

/-- A call that changes the directory. -/
inductive DirCall where
  | add (name : Name) (inode : ℕ) (fresh : Block)
  | remove (name : Name)

def DirCall.name : DirCall → Name
  | .add name _ _ => name
  | .remove name => name

def DirCall.exec (dir : DirInode) : DirCall → Option (Except Errno DirInode)
  | .add name inode fresh => pmfsAddEntry dir name inode (.ok fresh)
  | .remove name => some (pmfsRemoveEntry dir name)

/-- A directory and the map that it should be. -/
structure DirRun where
  dir : DirInode
  map : Name → Option ℕ

/-- Names have 1 to 255 bytes, none is added while it is there, and inode numbers are the numbers
of 64 bits other than 0. -/
def DirRun.Legal (s : DirRun) (c : DirCall) : Prop :=
  1 ≤ c.name.length ∧ c.name.length ≤ pmfsNameLen ∧
    match c with
    | .add name inode _ => s.map name = none ∧ 0 < inode ∧ inode < 2 ^ 64
    | .remove _ => True

/-- The map after a call. -/
def DirRun.after (s : DirRun) : DirCall → Name → Option ℕ
  | .add name inode _ => Function.update s.map name (some inode)
  | .remove name => Function.update s.map name none

inductive DirRun.Step (s : DirRun) (c : DirCall) : DirRun → Prop
  | mk (dir : DirInode) (hlegal : s.Legal c) (hcall : c.exec s.dir = some (.ok dir)) :
      Step s c ⟨dir, s.after c⟩

/-- The directory that `pmfs_mkdir` makes in a block that holds anything. -/
def DirRun.start (iIno parent : ℕ) (b : Block) : DirRun :=
  ⟨mkdirDir iIno parent b, mkdirMap iIno parent⟩

abbrev DirRun.Reaches : DirRun → DirRun → Prop :=
  Relation.ReflTransGen fun s t => ∃ c, s.Step c t

variable {s t u : DirRun} {c : DirCall} {iIno parent : ℕ} {b : Block}

/-- A call that is allowed succeeds, unless it removes a name that is not there. -/
theorem DirRun.progress (h : Represents s.dir s.map) (hlegal : s.Legal c) :
    (∃ dir, c.exec s.dir = some (.ok dir)) ∨
    c.exec s.dir = some (.error .einval) ∧ s.map c.name = none := by
  cases c with
  | add name inode fresh =>
    obtain ⟨hpos, hlen, hnew, hinode, hlt⟩ := hlegal
    have hne : name ≠ [] := List.length_pos_iff.mp hpos
    obtain ⟨dir, hadd, -⟩ := h.add fresh hne hlen hnew hinode.ne' hlt
    exact .inl ⟨dir, hadd⟩
  | remove name =>
    rcases h.remove name with ⟨hremove, hnone⟩ | ⟨dir, hremove, -⟩
    · exact .inr ⟨by rw [DirCall.exec, hremove], hnone⟩
    · exact .inl ⟨dir, by rw [DirCall.exec, hremove]⟩

theorem DirRun.Step.represents (hstep : s.Step c t) (h : Represents s.dir s.map) :
    Represents t.dir t.map := by
  obtain ⟨dir, hlegal, hcall⟩ := hstep
  cases c with
  | add name inode fresh =>
    obtain ⟨hpos, hlen, hnew, hinode, hlt⟩ := hlegal
    have hne : name ≠ [] := List.length_pos_iff.mp hpos
    obtain ⟨dir', hadd, hrep⟩ := h.add fresh hne hlen hnew hinode.ne' hlt
    rw [DirCall.exec, hadd] at hcall
    cases hcall
    exact hrep
  | remove name =>
    rw [DirCall.exec] at hcall
    rcases h.remove name with ⟨hremove, -⟩ | ⟨dir', hremove, hrep⟩
    · rw [hremove] at hcall
      cases hcall
    · rw [hremove] at hcall
      cases hcall
      exact hrep

theorem DirRun.Reaches.represents (hrun : s.Reaches t) (h : Represents s.dir s.map) :
    Represents t.dir t.map := by
  induction hrun with
  | refl => exact h
  | tail _ hstep ih =>
    obtain ⟨c, hstep⟩ := hstep
    exact hstep.represents ih

/-- The inode number that a lookup of the name gives when it starts at `hint`. -/
def DirRun.lookup (s : DirRun) (hint : ℕ) (name : Name) : Option ℕ :=
  (pmfsInodeByName s.dir.blocks.length { s.dir with startLookup := hint } name).map Lookup.iNo

theorem DirRun.lookup_eq (h : Represents s.dir s.map) (hint : ℕ) (name : Name) :
    s.lookup hint name = some ((s.map name).getD 0) := by
  obtain ⟨r, hr, hino⟩ := Represents.lookup (h.hint hint) le_rfl name
  rw [DirRun.lookup]
  exact (congrArg (Option.map Lookup.iNo) hr).trans (congrArg some hino)

theorem DirRun.Step.map_of_ne (hstep : s.Step c t) {name : Name} (hne : name ≠ c.name) :
    t.map name = s.map name := by
  obtain ⟨dir, -, -⟩ := hstep
  cases c <;> exact Function.update_of_ne hne ..

end Wpmfs.Dir
