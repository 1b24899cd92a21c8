import Wpmfs.Dir.Readdir

/-!
# Listing a directory in pieces

A listing is a run of `pmfs_readdir` calls on one open file, each from the position where the one
before was stopped, with entries added and removed in between. Live entries keep their places, so
the position splits the entries of the directory into those that were passed and those that are
still to come. A removal at the position itself breaks this: the entry before grows over the removed
one, and the position is not the start of an entry any more.
-/

namespace Wpmfs.Dir

open Bytes Assoc

/-- A directory, what it holds, the position of the open file, what was emitted since it was opened,
and the names that were there all the time. -/
structure Listing where
  dir : DirInode
  map : Name → Option ℕ
  pos : ℕ
  out : Emitted
  stayed : Name → Prop

inductive ListCall where
  | add (name : Name) (inode : ℕ) (alloc : Except Errno Block)
  | remove (name : Name)
  | readdir (emit : Emitted → Bool)

namespace Listing

/-- Names have 1 to 255 bytes, and none is added while it is there. -/
inductive Step (ok : Listing → ListCall → Prop) (s : Listing) : Listing → Prop
  | add {name : Name} {inode : ℕ} {alloc : Except Errno Block} {dir : DirInode} (hne : name ≠ [])
      (hlen : name.length ≤ pmfsNameLen) (hnew : s.map name = none) (hpos : 0 < inode)
      (hinode : inode < 2 ^ 64) (hok : ok s (.add name inode alloc))
      (hadd : pmfsAddEntry s.dir name inode alloc = some (.ok dir)) :
      Step ok s { s with dir := dir, map := Function.update s.map name (some inode) }
  | remove {name : Name} {dir : DirInode} (hok : ok s (.remove name))
      (hremove : pmfsRemoveEntry s.dir name = .ok dir) :
      Step ok s { s with
        dir := dir
        map := Function.update s.map name none
        stayed := fun n => s.stayed n ∧ n ≠ name }
  | readdir {emit : Emitted → Bool} {fuel pos : ℕ} {out : Emitted} (hok : ok s (.readdir emit))
      (hread : pmfsReaddir emit (s.dir.blocks.map some) fuel s.pos = some (pos, out)) :
      Step ok s { s with pos := pos, out := s.out ++ out }

abbrev Reaches (ok : Listing → ListCall → Prop) : Listing → Listing → Prop :=
  Relation.ReflTransGen (Step ok)

/-- The file was just opened. -/
structure Opened (s : Listing) : Prop where
  represents : Represents s.dir s.map
  pos : s.pos = 0
  out : s.out = []
  stayed : ∀ name, s.stayed name ↔ s.map name ≠ none

/-- No removal takes away the entry at the position, unless it is the first one of its block. -/
def KeepsPosition (s : Listing) : ListCall → Prop
  | .remove name => ∀ b, s.dir.blocks[s.pos / blockSize]? = some b → 0 < s.pos % blockSize →
    pmfsMatch name b (s.pos % blockSize) = false
  | _ => True

/-- How often the name was emitted. -/
def times (out : Emitted) (name : Name) : ℕ := (out.map Prod.fst).count name

end Listing

variable {b : Block} {blocks : List Block} {emit : Emitted → Bool} {out out' : Emitted}
  {name : Name} {size base pos pos' o fuel inode : ℕ} {e p : Dirent}
  {es es' pre post q : List Dirent} {ess ess' : List (List Dirent)}

/-! ## The entries of all blocks in a row -/

theorem bindings_append : bindings (pre ++ post) = bindings pre ++ bindings post :=
  List.flatMap_append ..

theorem contents_eq_bindings (ess : List (List Dirent)) : contents ess = bindings ess.flatten := by
  induction ess with
  | nil => rfl
  | cons es ess ih =>
    rw [List.flatten_cons, bindings_append, ← ih]
    rfl

theorem Tiled.span_flatten (h : Tiled blocks ess) :
    span ess.flatten = blocks.length * blockSize := by
  induction h with
  | nil => simp
  | cons hb _ ih =>
    have := hb.stop_eq
    rw [List.flatten_cons, span_append, ih, List.length_cons, Nat.succ_mul]
    omega

/-- The block that certain entries fill, and where it lies. -/
theorem Tiled.block {A B : List (List Dirent)} (h : Tiled blocks (A ++ es :: B)) :
    ∃ b, blocks[A.length]? = some b ∧ Tiles b 0 es blockSize ∧
      span A.flatten = A.length * blockSize ∧
      (A.length + 1) * blockSize ≤ span (A ++ es :: B).flatten := by
  induction A generalizing blocks with
  | nil =>
    cases h with
    | cons hb hbs =>
      have := hb.stop_eq
      refine ⟨_, rfl, hb, by simp, ?_⟩
      simp
      omega
  | cons x A ih =>
    cases h with
    | cons hb hbs =>
      obtain ⟨b, hget, htiles, hspan, hle⟩ := ih hbs
      have hstop := hb.stop_eq
      have hsucc : (A.length + 1) * blockSize = A.length * blockSize + blockSize :=
        Nat.succ_mul ..
      have hsucc' : (A.length + 1 + 1) * blockSize = (A.length + 1) * blockSize + blockSize :=
        Nat.succ_mul ..
      refine ⟨b, hget, htiles, ?_, ?_⟩
      · rw [List.flatten_cons, span_append, hspan, List.length_cons]
        omega
      · rw [List.cons_append, List.flatten_cons, span_append, List.length_cons]
        omega

/-- Where the row of entries is cut, the cut lies at its end or in one block. -/
theorem exists_block_of_flatten (h : ess.flatten = pre ++ post) :
    post = [] ∨ ∃ A p q B, ess = A ++ (p ++ q) :: B ∧ q ≠ [] ∧ pre = A.flatten ++ p ∧
      post = q ++ B.flatten := by
  induction ess generalizing pre with
  | nil => exact .inl (List.append_eq_nil_iff.mp h.symm).2
  | cons es ess ih =>
    rw [List.flatten_cons] at h
    obtain ⟨a, rfl, ha⟩ | ⟨a, rfl, ha⟩ := List.append_eq_append_iff.mp h
    · rcases ih ha with hnil | ⟨A, p, q, B, rfl, hne, rfl, rfl⟩
      · exact .inl hnil
      · exact .inr ⟨es :: A, p, q, B, rfl, hne, by simp, rfl⟩
    · rcases a.eq_nil_or_concat with rfl | ⟨a', x, rfl⟩
      · -- the cut lies between two blocks
        rw [List.nil_append] at ha
        rcases @ih [] (by simpa using ha.symm) with hnil | ⟨A, p, q, B, rfl, hne, hp, rfl⟩
        · exact .inl hnil
        · exact .inr ⟨pre :: A, p, q, B, by simp, hne, by simp [← hp], rfl⟩
      · exact .inr ⟨[], pre, a'.concat x, ess, rfl, by simp, rfl, ha⟩

/-! ## What a call of `pmfs_readdir` emits -/

/-- A live entry goes to `dir_emit`. -/
theorem readdirBlock_live (hat : direntAt b offset = e) (hpos : pos < size)
    (hoffset : offset < blockSize) (hcheck : pmfsCheckDirEntry b offset = true)
    (hlive : e.ino ≠ 0) :
    readdirBlock emit b size pos offset out =
      if emit (out ++ [(e.name, e.ino)]) then
        readdirBlock emit b size (pos + e.len) (offset + e.len) (out ++ [(e.name, e.ino)])
      else .refused pos out := by
  subst hat
  rw [direntAt_ino] at hlive
  rw [readdirBlock, if_pos ⟨hpos, hoffset⟩, dif_pos hcheck, if_pos hlive]
  rfl

/-- The walk over the entries of a block emits the live ones, up to the one that is refused. -/
theorem readdirBlock_tiles (emit : Emitted → Bool) (out : Emitted) (h : Tiles b o q blockSize)
    (hsize : base + blockSize ≤ size) :
    readdirBlock emit b size (base + o) o out = .next (base + blockSize) (out ++ bindings q) ∨
    ∃ mid rest, q = mid ++ rest ∧ readdirBlock emit b size (base + o) o out =
      .refused (base + o + span mid) (out ++ bindings mid) := by
  induction q generalizing o out with
  | nil =>
    obtain rfl : o = blockSize := h
    rw [readdirBlock, if_neg (by omega)]
    exact .inl (by simp [bindings])
  | cons e q ih =>
    obtain ⟨rfl, hfits, htail⟩ := h
    have hstop := htail.stop_eq
    have hmin := hfits.minimal
    rw [pmfsDirRecLen_one] at hmin
    rw [direntAt_len] at hmin hstop htail
    have hcheck : pmfsCheckDirEntry b o = true := by
      rw [pmfsCheckDirEntry, errorMsg_eq_none hfits (by omega)]
      rfl
    by_cases hlive : ino b o = 0
    · have hnone : bindings (direntAt b o :: q) = bindings q := by
        simp [bindings, Dirent.binding, hlive]
      rw [readdirBlock, if_pos ⟨by omega, by omega⟩, dif_pos hcheck, if_neg (by simpa using hlive),
        Nat.add_assoc, hnone]
      rcases @ih (o + deLen b o) out htail with hnext | ⟨mid, rest, rfl, hrefused⟩
      · exact .inl hnext
      · refine .inr ⟨direntAt b o :: mid, rest, rfl, ?_⟩
        rw [hrefused, span_cons, direntAt_len]
        simp [bindings, Dirent.binding, hlive, Nat.add_assoc]
    · have hone : (direntAt b o).binding = [((direntAt b o).name, ino b o)] := by
        simp [Dirent.binding, hlive]
      rw [readdirBlock_live rfl (by omega) (by omega) hcheck hlive, direntAt_ino, direntAt_len,
        ← hone, Nat.add_assoc]
      split
      · rcases @ih (o + deLen b o) (out ++ (direntAt b o).binding) htail with
          hnext | ⟨mid, rest, rfl, hrefused⟩
        · refine .inl ?_
          rw [hnext]
          simp [bindings]
        · refine .inr ⟨direntAt b o :: mid, rest, rfl, ?_⟩
          rw [hrefused, span_cons, direntAt_len]
          simp [bindings, Nat.add_assoc]
      · exact .inr ⟨[], _, rfl, by simp [bindings]⟩

theorem Tiles.span_lt (h : Tiles b o (pre ++ post) blockSize) (hne : post ≠ []) :
    o + span pre < blockSize := by
  obtain ⟨-, hpost⟩ := tiles_append.mp h
  cases post with
  | nil => exact absurd rfl hne
  | cons e post =>
    obtain ⟨-, hfits, htail⟩ := hpost
    have hmin := hfits.minimal
    have hstop := htail.stop_eq
    rw [pmfsDirRecLen_one] at hmin
    omega

/-- From the start of an entry the walk emits the live entries up to where it stops. -/
theorem readdirLoop_spec (h : Tiled blocks ess) (hflat : ess.flatten = pre ++ post)
    (hread : readdirLoop emit (blocks.map some) fuel (span pre) (span pre % blockSize) out =
      some (pos', out')) :
    ∃ mid rest, post = mid ++ rest ∧ pos' = span (pre ++ mid) ∧ out' = out ++ bindings mid := by
  induction fuel generalizing pre post out with
  | zero => cases hread
  | succ fuel ih =>
    have hspan := Tiled.span_flatten h
    rw [readdirLoop, List.length_map, ← hspan] at hread
    rcases exists_block_of_flatten hflat with rfl | ⟨A, p, q, B, rfl, hne, rfl, rfl⟩
    · rw [hflat, List.append_nil, if_neg (lt_irrefl _)] at hread
      cases hread
      exact ⟨[], [], rfl, by simp, by simp [bindings]⟩
    · obtain ⟨b, hget, htiles, hA, hle⟩ := Tiled.block h
      have hlt := htiles.span_lt hne
      have hq := (tiles_append.mp htiles).2
      rw [Nat.zero_add] at hlt hq
      have hsucc : (A.length + 1) * blockSize = A.length * blockSize + blockSize :=
        Nat.succ_mul ..
      have hpos : span (A.flatten ++ p) = A.length * blockSize + span p := by rw [span_append, hA]
      have hdiv : span (A.flatten ++ p) / blockSize = A.length := by
        rw [hpos, Nat.mul_comm, Nat.mul_add_div (by decide), Nat.div_eq_of_lt hlt, Nat.add_zero]
      have hmod : span (A.flatten ++ p) % blockSize = span p := by
        rw [hpos, Nat.mul_comm, Nat.mul_add_mod, Nat.mod_eq_of_lt hlt]
      have hblock : (blocks.map some)[A.length]?.join = some b := by simp [hget]
      rw [if_pos (by omega), hdiv, hblock, hmod, hpos] at hread
      dsimp only at hread
      rcases readdirBlock_tiles emit out hq
        (show A.length * blockSize + blockSize ≤ span (A ++ (p ++ q) :: B).flatten by omega) with
        hnext | ⟨mid, rest, rfl, hrefused⟩
      · rw [hnext] at hread
        dsimp only at hread
        -- the walk goes on at the start of the next block
        have hend : span (A.flatten ++ p ++ q) = A.length * blockSize + blockSize := by
          have := htiles.stop_eq
          rw [span_append] at this
          rw [span_append, hpos]
          omega
        have hzero : span (A.flatten ++ p ++ q) % blockSize = 0 := by
          rw [hend, ← Nat.succ_mul]
          exact Nat.mul_mod_left ..
        rw [← hend] at hread
        obtain ⟨mid, rest, hB, hpos', hout'⟩ := @ih (out ++ bindings q) (A.flatten ++ p ++ q)
          B.flatten (by simp) (by rwa [hzero])
        refine ⟨q ++ mid, rest, by rw [hB, List.append_assoc], ?_, ?_⟩
        · rw [hpos', List.append_assoc _ q]
        · rw [hout', bindings_append, List.append_assoc]
      · rw [hrefused] at hread
        cases hread
        refine ⟨mid, rest ++ B.flatten, by simp, ?_, rfl⟩
        rw [span_append, hpos]

/-! ## What a change does to the row of entries -/

/-- The names of the live entries. -/
def names (es : List Dirent) : List Name := (bindings es).map Prod.fst

theorem names_append : names (pre ++ post) = names pre ++ names post := by
  rw [names, bindings_append, List.map_append]
  rfl

theorem mem_names {n : Name} : n ∈ names es ↔ ∃ e ∈ es, e.ino ≠ 0 ∧ e.name = n := by
  simp only [names, List.mem_map, Prod.exists, mem_bindings]
  constructor
  · rintro ⟨_, i, ⟨e, he, hlive, rfl, -⟩, rfl⟩
    exact ⟨e, he, hlive, rfl⟩
  · rintro ⟨e, he, hlive, rfl⟩
    exact ⟨_, _, ⟨e, he, hlive, rfl, rfl⟩, rfl⟩

/-- The same names, one left aside. -/
def SameOthers (name : Name) (es es' : List Dirent) : Prop :=
  ∀ n ≠ name, n ∈ names es' ↔ n ∈ names es

theorem SameOthers.refl (name : Name) (es : List Dirent) : SameOthers name es es :=
  fun _ _ => Iff.rfl

theorem SameOthers.append {pre' post' : List Dirent} (hpre : SameOthers name pre pre')
    (hpost : SameOthers name post post') : SameOthers name (pre ++ post) (pre' ++ post') := by
  intro n hn
  rw [names_append, names_append, List.mem_append, List.mem_append, hpre n hn, hpost n hn]

/-- The row can be cut where it was cut before, with the same names on each side, up to one. -/
def KeepsCut (name : Name) (pre post row : List Dirent) : Prop :=
  ∃ pre' post', row = pre' ++ post' ∧ span pre' = span pre ∧ SameOthers name pre pre' ∧
    SameOthers name post post'

/-- Where a row is cut, a part of it lies behind the cut, before it, or on both sides. -/
theorem cut_cases {x m y : List Dirent} (h : x ++ m ++ y = pre ++ post) :
    (∃ c, x = pre ++ c ∧ post = c ++ m ++ y) ∨ (∃ c, pre = x ++ m ++ c ∧ y = c ++ post) ∨
    ∃ m₁ m₂, m₁ ≠ [] ∧ m₂ ≠ [] ∧ m = m₁ ++ m₂ ∧ pre = x ++ m₁ ∧ post = m₂ ++ y := by
  obtain ⟨c, hpre, hy⟩ | ⟨c, hm, hpost⟩ := List.append_eq_append_iff.mp h
  · exact .inr (.inl ⟨c, hpre, hy⟩)
  · obtain ⟨d, hpre, hmd⟩ | ⟨d, hx, hc⟩ := List.append_eq_append_iff.mp hm
    · by_cases hd : d = []
      · subst hd
        rw [List.append_nil] at hpre
        rw [List.nil_append] at hmd
        exact .inl ⟨[], by simp [hpre], by simp [hpost, hmd]⟩
      · by_cases hc : c = []
        · subst hc
          rw [List.append_nil] at hm hmd
          exact .inr (.inl ⟨[], by simp [hm], by simpa using hpost.symm⟩)
        · exact .inr (.inr ⟨d, c, hd, hc, hmd, hpre, hpost⟩)
    · exact .inl ⟨d, hx, by rw [hpost, hc]⟩

/-- A change of a part that the cut does not go through. -/
theorem keepsCut_of_change (m' : List Dirent) {x m y : List Dirent} (h : x ++ m ++ y = pre ++ post)
    (hspan : span m' = span m) (hsame : SameOthers name m m')
    (hcut : ∀ m₁ m₂, m₁ ≠ [] → m₂ ≠ [] → m = m₁ ++ m₂ → pre ≠ x ++ m₁) :
    KeepsCut name pre post (x ++ m' ++ y) := by
  obtain ⟨c, rfl, rfl⟩ | ⟨c, rfl, rfl⟩ | ⟨m₁, m₂, h₁, h₂, hm, hpre, -⟩ := cut_cases h
  · refine ⟨pre, c ++ m' ++ y, by simp, rfl, SameOthers.refl name _, ?_⟩
    exact ((SameOthers.refl name _).append hsame).append (SameOthers.refl name _)
  · refine ⟨x ++ m' ++ c, post, by simp, by simp [hspan], ?_, SameOthers.refl name _⟩
    exact ((SameOthers.refl name _).append hsame).append (SameOthers.refl name _)
  · exact absurd hpre (hcut m₁ m₂ h₁ h₂ hm)

/-- No cut goes through one entry. -/
theorem ne_singleton {m₁ m₂ : List Dirent} (h₁ : m₁ ≠ []) (h₂ : m₂ ≠ []) : [e] ≠ m₁ ++ m₂ := by
  intro h
  have hlen := congrArg List.length h
  have := List.length_pos_iff.mpr h₁
  have := List.length_pos_iff.mpr h₂
  rw [List.length_append, List.length_singleton] at hlen
  omega

theorem OneBlock.exists_mid {R : List Dirent → List Dirent → Prop} (h : OneBlock R ess ess') :
    ∃ A es es' B, ess = A ++ es :: B ∧ ess' = A ++ es' :: B ∧ R es es' := by
  induction h with
  | here ess h => exact ⟨[], _, _, ess, rfl, rfl, h⟩
  | there es _ ih =>
    obtain ⟨A, fs, fs', B, rfl, rfl, h⟩ := ih
    exact ⟨es :: A, fs, fs', B, rfl, rfl, h⟩

theorem Dirent.HasRoom.span_split (h : e.HasRoom (pmfsDirRecLen name.length)) (inode : ℕ) :
    span (e.split name inode) = e.len := by
  rw [Dirent.HasRoom, Dirent.used] at h
  rw [Dirent.split]
  split <;> grind [span_cons, span_nil]

theorem sameOthers_split (e : Dirent) (name : Name) (inode : ℕ) :
    SameOthers name [e] (e.split name inode) := by
  intro n hn
  rw [mem_names, mem_names, Dirent.split]
  split <;> simp <;> grind

/-- Names are added without moving an entry. -/
theorem Added.keepsCut (h : Added name inode ess ess') (hflat : ess.flatten = pre ++ post) :
    KeepsCut name pre post ess'.flatten := by
  cases h with
  | inPlace h =>
    obtain ⟨A, _, _, B, rfl, rfl, ⟨x, y, e, hroom⟩⟩ := h.exists_mid
    have hrow : A.flatten ++ x ++ [e] ++ (y ++ B.flatten) = pre ++ post := by
      rw [← hflat]
      simp
    have := keepsCut_of_change _ hrow (hroom.span_split inode) (sameOthers_split e name inode)
      fun m₁ m₂ h₁ h₂ hm => absurd hm (ne_singleton h₁ h₂)
    simpa using this
  | grown =>
    refine ⟨pre, post ++ [⟨inode, blockSize, name⟩], by simp [hflat], rfl,
      SameOthers.refl name _, ?_⟩
    intro n hn
    rw [mem_names, mem_names]
    simp
    grind

theorem sameOthers_head (hname : e.name = name) : SameOthers name [e] [{ e with ino := 0 }] := by
  intro n hn
  rw [mem_names, mem_names]
  simp
  grind

theorem sameOthers_merge (hname : e.name = name) :
    SameOthers name [p, e] [{ p with len := p.len + e.len }] := by
  intro n hn
  rw [mem_names, mem_names]
  simp
  grind

/-- An entry of a block is where its block and the entries before it say. -/
theorem Tiled.entry {A B : List (List Dirent)} {x y : List Dirent}
    (h : Tiled blocks (A ++ (x ++ e :: y) :: B)) :
    ∃ b, blocks[span (A.flatten ++ x) / blockSize]? = some b ∧
      span (A.flatten ++ x) % blockSize = span x ∧ direntAt b (span x) = e := by
  obtain ⟨b, hget, htiles, hA, -⟩ := Tiled.block h
  have hlt := htiles.span_lt (List.cons_ne_nil e y)
  obtain ⟨-, hat, -⟩ := tiles_append.mp htiles
  rw [Nat.zero_add] at hlt hat
  have hpos : span (A.flatten ++ x) = blockSize * A.length + span x := by
    rw [span_append, hA, Nat.mul_comm]
  refine ⟨b, ?_, ?_, hat⟩
  · rwa [hpos, Nat.mul_add_div (by decide), Nat.div_eq_of_lt hlt, Nat.add_zero]
  · rw [hpos, Nat.mul_add_mod, Nat.mod_eq_of_lt hlt]

/-- A name is removed without moving an entry, unless its entry is the next one. -/
theorem unlinks_keepsCut (h : OneBlock (Unlinks name) ess ess') (htiled : Tiled blocks ess)
    (hflat : ess.flatten = pre ++ post)
    (hkeeps : ∀ b, blocks[span pre / blockSize]? = some b → 0 < span pre % blockSize →
      pmfsMatch name b (span pre % blockSize) = false) :
    KeepsCut name pre post ess'.flatten := by
  obtain ⟨A, es, es', B, rfl, rfl, hunlinks⟩ := h.exists_mid
  cases hunlinks with
  | merge x y p e hlive hname =>
    have hrow : A.flatten ++ x ++ [p, e] ++ (y ++ B.flatten) = pre ++ post := by
      rw [← hflat]
      simp
    have := keepsCut_of_change [{ p with len := p.len + e.len }] hrow (by simp)
      (sameOthers_merge hname) ?_
    · simpa using this
    · -- a cut between the two entries is at the one that goes
      rintro m₁ m₂ h₁ h₂ hm rfl
      obtain rfl : m₁ = [p] := by
        cases m₁ with
        | nil => exact absurd rfl h₁
        | cons a m₁ =>
          cases m₁ with
          | nil => simp_all
          | cons b m₁ => simp_all
      have hcut : x ++ p :: e :: y = x ++ [p] ++ e :: y := by simp
      rw [hcut] at htiled
      obtain ⟨b, hget, hmod, hat⟩ := Tiled.entry htiled
      rw [← List.append_assoc] at hget hmod
      have hmatch : pmfsMatch name b (span (x ++ [p])) = true :=
        pmfsMatch_iff.mpr (by rw [hat]; exact ⟨hlive, hname⟩)
      obtain ⟨c, -, htiles, -⟩ := Tiled.block htiled
      have hfits := (htiles.of_mem (show p ∈ x ++ [p] ++ e :: y by simp)).1
      have hmin := hfits.minimal
      rw [pmfsDirRecLen_one] at hmin
      have := hkeeps b hget (by rw [hmod]; simp; omega)
      rw [hmod, hmatch] at this
      cases this
  | head y e hlive hname =>
    have hrow : A.flatten ++ [e] ++ (y ++ B.flatten) = pre ++ post := by
      rw [← hflat]
      simp
    have := keepsCut_of_change [{ e with ino := 0 }] hrow rfl (sameOthers_head hname)
      fun m₁ m₂ h₁ h₂ hm => absurd hm (ne_singleton h₁ h₂)
    simpa using this

/-! ## Runs -/

namespace Listing

variable {s t : Listing} {row : List Dirent}

/-- The names that were there all the time are in the map; those before the position were emitted
once, and those behind it were not. -/
structure Splits (s : Listing) (pre post : List Dirent) : Prop where
  pos : s.pos = span pre
  bound : ∀ n, s.stayed n → s.map n ≠ none
  once : ∀ n, s.stayed n → n ∈ names pre → times s.out n = 1
  never : ∀ n, s.stayed n → n ∈ names post → times s.out n = 0

/-- The row of entries and its cut at the position. -/
def Sound (s : Listing) : Prop :=
  ∃ ess pre post, Tiled s.dir.blocks ess ∧ ess ≠ [] ∧ Maps (contents ess) s.map ∧
    ess.flatten = pre ++ post ∧ s.Splits pre post

theorem Sound.represents (h : s.Sound) : Represents s.dir s.map := by
  obtain ⟨ess, -, -, htiled, hne, hmaps, -⟩ := h
  exact ⟨ess, htiled, hne, hmaps⟩

theorem Opened.sound (h : s.Opened) : s.Sound := by
  obtain ⟨ess, htiled, hne, hmaps⟩ := h.represents
  refine ⟨ess, [], ess.flatten, htiled, hne, hmaps, rfl, h.pos, fun n => (h.stayed n).mp, ?_, ?_⟩
  · intro n _ hn
    cases hn
  · intro n _ _
    rw [h.out]
    rfl

theorem times_append (out out' : Emitted) (n : Name) :
    times (out ++ out') n = times out n + times out' n := by
  rw [times, List.map_append, List.count_append]
  rfl

theorem times_bindings (es : List Dirent) (n : Name) :
    times (bindings es) n = (names es).count n := rfl

theorem nodup_names (hmaps : Maps (contents ess) s.map) (hflat : ess.flatten = row) :
    (names row).Nodup := by
  have := hmaps.nodup
  rwa [contents_eq_bindings, hflat] at this

/-- A name of the map is on one side of the position. -/
theorem mem_of_bound {n : Name} (hmaps : Maps (contents ess) s.map)
    (hflat : ess.flatten = pre ++ post) (hn : s.map n ≠ none) : n ∈ names pre ∨ n ∈ names post := by
  obtain ⟨i, hi⟩ := Option.ne_none_iff_exists'.mp hn
  have hmem := (hmaps.mem_iff n i).mpr hi
  rw [contents_eq_bindings, hflat] at hmem
  have : n ∈ names (pre ++ post) := List.mem_map.mpr ⟨_, hmem, rfl⟩
  rwa [names_append, List.mem_append] at this

/-- The names stay on their side of the position. -/
theorem Splits.change (dir : DirInode) {map : Name → Option ℕ} {stayed : Name → Prop}
    (h : s.Splits pre post) (hcut : KeepsCut name pre post row)
    (hstayed : ∀ n, stayed n → s.stayed n ∧ n ≠ name) (hmap : ∀ n ≠ name, map n = s.map n) :
    ∃ pre' post', row = pre' ++ post' ∧
      Splits { s with dir := dir, map := map, stayed := stayed } pre' post' := by
  obtain ⟨pre', post', hrow, hspan, hpre, hpost⟩ := hcut
  refine ⟨pre', post', hrow, h.pos.trans hspan.symm, ?_, ?_, ?_⟩
  · intro n hn
    obtain ⟨hn, hne⟩ := hstayed n hn
    exact fun hnone => h.bound n hn ((hmap n hne).symm.trans hnone)
  · intro n hn hmem
    obtain ⟨hn, hne⟩ := hstayed n hn
    exact h.once n hn ((hpre n hne).mp hmem)
  · intro n hn hmem
    obtain ⟨hn, hne⟩ := hstayed n hn
    exact h.never n hn ((hpost n hne).mp hmem)

/-- The position moves over entries that are emitted. -/
theorem Splits.advance {mid rest : List Dirent} (h : s.Splits pre (mid ++ rest))
    (hnodup : (names (pre ++ (mid ++ rest))).Nodup) :
    Splits { s with pos := span (pre ++ mid), out := s.out ++ bindings mid } (pre ++ mid) rest := by
  rw [names_append, names_append, List.nodup_append] at hnodup
  obtain ⟨-, hright, hapart⟩ := hnodup
  obtain ⟨hmid, -, hapart'⟩ := List.nodup_append.mp hright
  have honce := h.once
  have hnever := h.never
  refine ⟨rfl, h.bound, ?_, ?_⟩
  · intro n hn hmem
    dsimp only
    rw [times_append, times_bindings]
    rw [names_append, List.mem_append] at hmem
    rcases hmem with hmem | hmem
    · have hno : n ∉ names mid := fun h => hapart n hmem n (List.mem_append_left _ h) rfl
      rw [honce n hn hmem, List.count_eq_zero_of_not_mem hno]
    · rw [hnever n hn (by rw [names_append]; exact List.mem_append_left _ hmem),
        List.count_eq_one_of_mem hmid hmem]
  · intro n hn hmem
    dsimp only
    have hno : n ∉ names mid := fun h => hapart' n h n hmem rfl
    rw [times_append, times_bindings, List.count_eq_zero_of_not_mem hno,
      hnever n hn (by rw [names_append]; exact List.mem_append_right _ hmem)]

/-- A call of `pmfs_readdir` moves the position over entries that it emits. -/
theorem Sound.readdir {emit : Emitted → Bool} {fuel pos : ℕ} {out : Emitted} (h : s.Sound)
    (hread : pmfsReaddir emit (s.dir.blocks.map some) fuel s.pos = some (pos, out)) :
    Sound { s with pos := pos, out := s.out ++ out } ∧ ∀ b ∈ out, s.map b.1 = some b.2 := by
  obtain ⟨ess, pre, post, htiled, hne, hmaps, hflat, hsplits⟩ := h
  rw [pmfsReaddir, hsplits.pos] at hread
  obtain ⟨mid, rest, rfl, rfl, rfl⟩ := readdirLoop_spec htiled hflat hread
  rw [List.nil_append]
  refine ⟨⟨ess, pre ++ mid, rest, htiled, hne, hmaps, by rw [hflat, List.append_assoc],
    hsplits.advance (nodup_names hmaps hflat)⟩, ?_⟩
  rintro ⟨n, i⟩ hmem
  refine (hmaps.mem_iff n i).mp ?_
  rw [contents_eq_bindings, hflat, bindings_append, bindings_append]
  exact List.mem_append_right _ (List.mem_append_left _ hmem)

theorem Step.sound (hstep : Step KeepsPosition s t) (h : s.Sound) : t.Sound := by
  cases hstep with
  | @add name inode alloc dir hne hlen hnew hpos hinode hok hadd =>
    obtain ⟨ess, pre, post, htiled, -, hmaps, hflat, hsplits⟩ := h
    rcases pmfsAddEntry_spec alloc htiled hne hlen hinode with
      ⟨e, -, herror⟩ | ⟨blocks, ess', hadd', htiled', hadded⟩
    · rw [herror] at hadd
      cases hadd
    · rw [hadd'] at hadd
      cases hadd
      have hstayed : ∀ n, s.stayed n → s.stayed n ∧ n ≠ name := fun n hn =>
        ⟨hn, fun h => hsplits.bound n hn (h ▸ hnew)⟩
      have hmap : ∀ n ≠ name, Function.update s.map name (some inode) n = s.map n := fun n hn =>
        Function.update_of_ne hn ..
      obtain ⟨pre', post', hrow, hsplits'⟩ := hsplits.change { s.dir with blocks := blocks }
        (hadded.keepsCut hflat) hstayed hmap
      exact ⟨ess', pre', post', htiled', hadded.ne_nil,
        (hmaps.cons hnew).perm (hadded.perm hpos.ne'), hrow, hsplits'⟩
  | @remove name dir hok hremove =>
    obtain ⟨ess, pre, post, htiled, -, hmaps, hflat, hsplits⟩ := h
    rcases pmfsRemoveEntry_spec name htiled with
      ⟨herror, -⟩ | ⟨blocks, ess', hremove', htiled', hone⟩
    · rw [herror] at hremove
      cases hremove
    · rw [hremove'] at hremove
      cases hremove
      rw [KeepsPosition, hsplits.pos] at hok
      have hmap : ∀ n ≠ name, Function.update s.map name none n = s.map n := fun n hn =>
        Function.update_of_ne hn ..
      obtain ⟨pre', post', hrow, hsplits'⟩ := hsplits.change { s.dir with blocks := blocks }
        (unlinks_keepsCut hone htiled hflat hok) (fun n hn => hn) hmap
      obtain ⟨i, -, hperm⟩ := hone.unlinks_perm
      exact ⟨ess', pre', post', htiled', hone.ne_nil, (hmaps.perm hperm.symm).of_cons, hrow,
        hsplits'⟩
  | readdir hok hread => exact (h.readdir hread).1

theorem Reaches.sound (hrun : Reaches KeepsPosition s t) (h : s.Sound) : t.Sound := by
  induction hrun with
  | refl => exact h
  | tail _ hstep ih => exact hstep.sound ih

/-- The next call of `pmfs_readdir` ends, what it emits is in the directory, no name that was there
all the time was emitted twice, and at the end of the directory each of them was. -/
structure Right (s : Listing) : Prop where
  represents : Represents s.dir s.map
  ends : ∀ emit, ∃ fuel r, pmfsReaddir emit (s.dir.blocks.map some) fuel s.pos = some r
  there : ∀ emit fuel pos out,
    pmfsReaddir emit (s.dir.blocks.map some) fuel s.pos = some (pos, out) →
      ∀ b ∈ out, s.map b.1 = some b.2
  atMostOnce : ∀ n, s.stayed n → times s.out n ≤ 1
  once : s.dir.blocks.length * blockSize ≤ s.pos → ∀ n, s.stayed n → times s.out n = 1

theorem not_startsBad (h : Tiled blocks ess) : ¬StartsBad (blocks.map some) := by
  rintro ⟨b, hmem, hbad⟩
  obtain ⟨c, hc, hcb⟩ := List.mem_map.mp hmem
  cases hcb
  obtain ⟨es, htiles⟩ := Tiled.exists_entries h hc
  cases es with
  | nil => cases htiles
  | cons e es =>
    obtain ⟨rfl, hfits, htail⟩ := htiles
    have hstop := htail.stop_eq
    rw [direntAt_len] at hstop
    rw [pmfsCheckDirEntry, errorMsg_eq_none hfits (by omega)] at hbad
    cases hbad

theorem Sound.right (h : s.Sound) : s.Right := by
  obtain ⟨ess, pre, post, htiled, hne, hmaps, hflat, hsplits⟩ := id h
  refine ⟨h.represents, fun emit => ?_, fun emit fuel pos out hread => (h.readdir hread).2, ?_, ?_⟩
  · exact ⟨_, exists_readdirLoop (not_startsBad htiled) (Nat.mod_lt _ (by decide))
      (Nat.lt_succ_self _)⟩
  · intro n hn
    rcases mem_of_bound hmaps hflat (hsplits.bound n hn) with hmem | hmem
    · exact (hsplits.once n hn hmem).le
    · exact (hsplits.never n hn hmem).le.trans (Nat.zero_le _)
  · intro hend n hn
    -- no entry lies behind the position
    have hnil : post = [] := by
      rcases exists_block_of_flatten hflat with hnil | ⟨A, p, q, B, rfl, hq, rfl, rfl⟩
      · exact hnil
      · obtain ⟨b, -, htiles, hA, hle⟩ := Tiled.block htiled
        have hlt := htiles.span_lt hq
        have hsucc : (A.length + 1) * blockSize = A.length * blockSize + blockSize :=
          Nat.succ_mul ..
        rw [← Tiled.span_flatten htiled, hsplits.pos, span_append, hA] at hend
        omega
    rcases mem_of_bound hmaps hflat (hsplits.bound n hn) with hmem | hmem
    · exact hsplits.once n hn hmem
    · rw [hnil] at hmem
      cases hmem

/-- The name `a`. -/
def nameA : Name := [0x61]

/-- The block of a directory that holds `a`. -/
def blockA : Block := insertDirent (mkdirBlock 384 128 zeroBlock) 16 nameA 256

/-- The directory was just opened. -/
def openedA : Listing where
  dir := ⟨384, [blockA], 0⟩
  map := Function.update (mkdirMap 384 128) nameA (some 256)
  pos := 0
  out := []
  stayed name := Function.update (mkdirMap 384 128) nameA (some 256) name ≠ none

theorem tiles_blockA :
    Tiles blockA 0 [⟨384, 16, dot⟩, ⟨128, 16, dotdot⟩, ⟨256, 4064, nameA⟩] blockSize := by
  have hmkdir : Tiles (mkdirBlock 384 128 zeroBlock) 0
      ([⟨384, 16, dot⟩] ++ ⟨128, 4080, dotdot⟩ :: []) blockSize :=
    tiles_mkdirBlock (by decide) (by decide)
  exact hmkdir.insertDirent (show 16 + 16 ≤ 4080 by decide) (by decide) (by decide) (by decide)

theorem openedA_opened : Opened openedA := by
  refine ⟨⟨_, .cons tiles_blockA .nil, by simp, ?_⟩, rfl, rfl, fun _ => Iff.rfl⟩
  have hmaps : Maps (contents [[⟨384, 16, dot⟩, ⟨128, 4080, dotdot⟩]]) (mkdirMap 384 128) :=
    maps_mkdir (by decide) (by decide)
  have hperm : (contents [[⟨384, 16, dot⟩, ⟨128, 16, dotdot⟩, ⟨256, 4064, nameA⟩]]).Perm
      ((nameA, 256) :: contents [[⟨384, 16, dot⟩, ⟨128, 4080, dotdot⟩]]) := by decide
  exact (hmaps.cons (by decide)).perm hperm

/-- The block after `a` was taken out: the bytes of its entry stay. -/
def blockB : Block := setDeLen blockA 16 4080

theorem pmfsRemoveEntry_nameA : pmfsRemoveEntry openedA.dir nameA = .ok ⟨384, [blockB], 0⟩ := by
  have hfirst : pmfsNextEntry blockA 0 = 16 := by decide
  have hsecond : pmfsNextEntry blockA 16 = 32 := by decide
  have hsearch : pmfsSearchDirblock blockA nameA = .found 32 (some 16) := by
    rw [pmfsSearchDirblock, searchFrom, if_pos (by decide), if_neg (by decide),
      if_neg (by decide), hfirst, searchFrom, if_pos (by decide), if_neg (by decide),
      if_neg (by decide), hsecond, searchFrom, if_pos (by decide), if_pos (by decide),
      if_pos (by decide)]
  have hlen : deLen blockA 16 + deLen blockA 32 = 4080 := by decide
  have hremove : removeFromBlocks nameA [blockA] = some [blockB] := by
    rw [removeFromBlocks, hsearch]
    dsimp only
    rw [unlinkDirent, hlen, blockB]
  rw [pmfsRemoveEntry, if_neg (by decide), openedA]
  dsimp only
  rw [hremove]

/-- `dir_emit` takes two entries. -/
theorem pmfsReaddir_two : pmfsReaddir (fun out => out.length ≤ 2) [some blockA] 1 0 =
    some (32, [(dot, 384), (dotdot, 128)]) := by
  obtain ⟨h0, -, h16, -, h32, -⟩ := tiles_blockA
  have hblock : [some blockA][0 / blockSize]?.join = some blockA := rfl
  rw [pmfsReaddir, Nat.zero_mod, readdirLoop, if_pos (by decide), hblock]
  dsimp only
  rw [readdirBlock_live h0 (by decide) (by decide) (by decide) (by decide), if_pos (by decide),
    readdirBlock_live h16 (by decide) (by decide) (by decide) (by decide), if_pos (by decide),
    readdirBlock_live h32 (by decide) (by decide) (by decide) (by decide), if_neg (by decide)]
  rfl

/-- The position is at the entry that was taken out. -/
theorem pmfsReaddir_blockB : pmfsReaddir (fun _ => true) [some blockB] 2 32 =
    some (4096, [(nameA, 256)]) := by
  have hat : direntAt blockB 32 = ⟨256, 4064, nameA⟩ := by decide +kernel
  have hblock : [some blockB][32 / blockSize]?.join = some blockB := rfl
  have hmod : 32 % blockSize = 32 := by decide
  rw [pmfsReaddir, hmod, readdirLoop, if_pos (by decide), hblock]
  dsimp only
  rw [readdirBlock_live hat (by decide) (by decide) (by decide) (by decide), if_pos rfl,
    readdirBlock, if_neg (by decide)]
  dsimp only
  rw [readdirLoop, if_neg (by decide)]
  rfl

end Listing

end Wpmfs.Dir
