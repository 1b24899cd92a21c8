import Wpmfs.Dir.Refinement

/-!
# Directories with `.` and `..`

As long as no call names `.` or `..`, they stay the first two entries of the first block, each name
followed by a zero byte. `Houses` says so, and that the other live entries are a map. This is what
`pmfs_empty_dir` and `pmfs_get_parent` rely on.
-/

namespace Wpmfs.Dir

open Bytes Assoc

/-- `strcmp` of a literal and the name of an entry finds no difference. -/
def strEq (name : Name) (b : Block) (de : ℕ) : Bool :=
  readBytes b (de + 12) (name.length + 1) = name ++ [0]

theorem deLen_pos_of_check {b : Block} {de : ℕ} (h : pmfsCheckDirEntry b de) : 0 < deLen b de := by
  by_contra hzero
  have hsmall : deLen b de < pmfsDirRecLen 1 := by
    rw [pmfsDirRecLen_one]
    omega
  rw [pmfsCheckDirEntry, errorMsg, if_pos hsmall] at h
  cases h

/-- The loop of `pmfs_empty_dir`: `offset` runs over the directory and `de` over the block. -/
def emptyFrom (blocks : List Block) (b : Block) (de offset : ℕ) : Bool :=
  if offset < blocks.length * blockSize then
    match if blockSize ≤ de then (blocks.getD (offset / blockSize) fun _ => 0, 0) else (b, de) with
    | (b, de) =>
      if h : pmfsCheckDirEntry b de then
        if ino b de ≠ 0 then false
        else emptyFrom blocks b (pmfsNextEntry b de) (offset + deLen b de)
      else emptyFrom blocks b blockSize ((offset / blockSize + 1) * blockSize)
  else true
termination_by blocks.length * blockSize - offset
decreasing_by
  · have := deLen_pos_of_check h
    omega
  · have : offset < (offset / blockSize + 1) * blockSize := by
      rw [blockSize]
      omega
    omega

/-- `pmfs_empty_dir`: no entry behind `.` and `..` is in use. -/
def pmfsEmptyDir (dir : DirInode) : Bool :=
  if dir.blocks.length * blockSize < pmfsDirRecLen 1 + pmfsDirRecLen 2 then true
  else
    match dir.blocks[0]? with
    | none => true
    | some b =>
      let de1 := pmfsNextEntry b 0
      if ino b 0 ≠ dir.iIno ∨ ino b de1 = 0 ∨ !strEq dot b 0 ∨ !strEq dotdot b de1 then true
      else emptyFrom dir.blocks b (pmfsNextEntry b de1) (deLen b 0 + deLen b de1)

variable {b b' : Block} {blocks blocks' : List Block} {dir : DirInode}
  {de offset k iIno parent inode : ℕ} {name : Name} {e : Dirent} {es post : List Dirent}
  {ess ess' : List (List Dirent)} {m : Name → Option ℕ}

/-- No entry is in use. -/
def unused (es : List Dirent) : Bool := es.all fun e => e.ino = 0

theorem emptyFrom_eq (h : Tiles b de es blockSize)
    (hend : offset + span es ≤ blocks.length * blockSize) :
    emptyFrom blocks b de offset =
      (unused es && emptyFrom blocks b blockSize (offset + span es)) := by
  induction es generalizing de offset with
  | nil =>
    obtain rfl : de = blockSize := h
    simp [unused]
  | cons e es ih =>
    obtain ⟨rfl, hfits, htail⟩ := h
    have hstop := htail.stop_eq
    have hmin := hfits.minimal
    rw [pmfsDirRecLen_one] at hmin
    rw [span_cons] at hend
    rw [direntAt_len] at *
    have hcheck : pmfsCheckDirEntry b de := by
      rw [pmfsCheckDirEntry, errorMsg_eq_none hfits (by omega)]
      rfl
    rw [emptyFrom, if_pos (by omega), if_neg (by omega)]
    dsimp only
    rw [dif_pos hcheck]
    by_cases hino : ino b de = 0
    · rw [if_neg (by simpa using hino), pmfsNextEntry, ih htail (by omega)]
      simp [unused, hino, Nat.add_assoc]
    · rw [if_pos hino]
      simp [unused, hino]

/-- At the end of a block the loop goes on with the next one. -/
theorem emptyFrom_next (hk : k < blocks.length) :
    emptyFrom blocks b blockSize (k * blockSize) =
      emptyFrom blocks (blocks[k]) 0 (k * blockSize) := by
  have hlt : k * blockSize < blocks.length * blockSize :=
    Nat.mul_lt_mul_of_pos_right hk (by decide)
  have hdiv : k * blockSize / blockSize = k := Nat.mul_div_cancel _ (by decide)
  rw [emptyFrom, if_pos hlt, if_pos le_rfl]
  conv_rhs => rw [emptyFrom, if_pos hlt, if_neg (by decide)]
  rw [hdiv, List.getD_eq_getElem?_getD, List.getElem?_eq_getElem hk, Option.getD_some]

theorem emptyFrom_blocks (h : Tiled blocks ess) (hk : k ≤ blocks.length) :
    emptyFrom blocks b blockSize (k * blockSize) = (ess.drop k).all unused := by
  have hlen := h.length_eq
  induction hn : blocks.length - k generalizing k b with
  | zero =>
    obtain rfl : k = blocks.length := by omega
    rw [emptyFrom, if_neg (lt_irrefl _), hlen, List.drop_length, List.all_nil]
  | succ n ih =>
    have hlt : k < blocks.length := by omega
    obtain ⟨es, hes, htiles⟩ := Tiled.getElem? h (List.getElem?_eq_getElem hlt)
    have hspan := htiles.stop_eq
    rw [Nat.zero_add] at hspan
    have hend : k * blockSize + span es = (k + 1) * blockSize := by rw [← hspan, Nat.succ_mul]
    have hfit : (k + 1) * blockSize ≤ blocks.length * blockSize := Nat.mul_le_mul_right _ hlt
    rw [emptyFrom_next hlt, emptyFrom_eq htiles (by rwa [hend]), hend, ih hlt (by omega)]
    obtain ⟨hlt', rfl⟩ := List.getElem?_eq_some_iff.mp hes
    rw [List.drop_eq_getElem_cons hlt', List.all_cons]

/-! ## The first two entries -/

/-- `.` and `..` come first. -/
def DotsFirst (iIno parent : ℕ) (ess : List (List Dirent)) : Prop :=
  ∃ len rest ess',
    ess = (⟨iIno, pmfsDirRecLen 1, dot⟩ :: ⟨parent, len, dotdot⟩ :: rest) :: ess'

/-- A zero byte follows each of the two names. -/
def Terminated (blocks : List Block) : Prop := ∀ b ∈ blocks.head?, b 13 = 0 ∧ b 30 = 0

/-- The map with the bindings of `.` and `..`. -/
def withDots (iIno parent : ℕ) (m : Name → Option ℕ) : Name → Option ℕ :=
  Function.update (Function.update m dotdot (some parent)) dot (some iIno)

/-- A directory with `.` and `..` that binds other names as the map says. -/
structure Lists (dir : DirInode) (parent : ℕ) (m : Name → Option ℕ) (ess : List (List Dirent)) :
    Prop where
  tiled : Tiled dir.blocks ess
  dots : DotsFirst dir.iIno parent ess
  terminated : Terminated dir.blocks
  maps : Maps (contents ess) (withDots dir.iIno parent m)
  dot_free : m dot = none
  dotdot_free : m dotdot = none
  iIno_pos : dir.iIno ≠ 0
  parent_pos : parent ≠ 0

def Houses (dir : DirInode) (parent : ℕ) (m : Name → Option ℕ) : Prop :=
  ∃ ess, Lists dir parent m ess

theorem withDots_of_ne (hdot : name ≠ dot) (hdotdot : name ≠ dotdot) :
    withDots iIno parent m name = m name := by
  rw [withDots, Function.update_of_ne hdot, Function.update_of_ne hdotdot]

theorem withDots_dotdot : withDots iIno parent m dotdot = some parent := by
  rw [withDots, Function.update_of_ne (by decide), Function.update_self]

theorem withDots_update {v : Option ℕ} (hdot : name ≠ dot) (hdotdot : name ≠ dotdot) :
    withDots iIno parent (Function.update m name v) =
      Function.update (withDots iIno parent m) name v := by
  rw [withDots, withDots, Function.update_comm hdotdot, Function.update_comm hdot]

theorem strEq_of_name (hname : (direntAt b de).name = name)
    (hzero : b (de + 12 + name.length) = 0) : strEq name b de := by
  have hlen : nameLen b de = name.length := by rw [← length_name_direntAt, hname]
  have hread : readBytes b (de + 12) name.length = name := by rw [← hlen]; exact hname
  rw [strEq, readBytes_succ, hread, hzero, decide_eq_true rfl]

/-- `pmfs_empty_dir` sees exactly the entries behind `.` and `..`. -/
theorem pmfsEmptyDir_eq {len : ℕ} {rest : List Dirent} (h : Tiled dir.blocks ess)
    (hess : ess = (⟨dir.iIno, pmfsDirRecLen 1, dot⟩ :: ⟨parent, len, dotdot⟩ :: rest) :: ess')
    (hterm : Terminated dir.blocks) (hparent : parent ≠ 0) :
    pmfsEmptyDir dir = (unused rest && ess'.all unused) := by
  subst hess
  obtain ⟨b, bs, hb, hbs, hblocks⟩ : ∃ b bs, Tiles b 0 _ blockSize ∧ Tiled bs ess' ∧
      dir.blocks = b :: bs := by
    cases hd : dir.blocks with
    | nil => rw [hd] at h; cases h
    | cons b bs => rw [hd] at h; cases h with | cons hb hbs => exact ⟨b, bs, hb, hbs, rfl⟩
  have htiles := hb
  obtain ⟨hat, -, hat', -, hrest⟩ := hb
  rw [Nat.zero_add] at hat' hrest
  have hstop := hrest.stop_eq
  obtain ⟨h13, h30⟩ := hterm b (by rw [hblocks]; rfl)
  have hlen0 : deLen b 0 = pmfsDirRecLen 1 := by rw [← direntAt_len, hat]
  have hlen1 : deLen b (pmfsDirRecLen 1) = len := by rw [← direntAt_len, hat']
  have hino0 : ino b 0 = dir.iIno := by rw [← direntAt_ino, hat]
  have hino1 : ino b (pmfsDirRecLen 1) = parent := by rw [← direntAt_ino, hat']
  have hdot : strEq dot b 0 := strEq_of_name (by rw [hat]) h13
  have hdotdot : strEq dotdot b (pmfsDirRecLen 1) := strEq_of_name (by rw [hat']) h30
  have hsize : 0 < bs.length * blockSize + blockSize := by
    rw [blockSize]
    omega
  have hspan : pmfsDirRecLen 1 + len + span rest = 1 * blockSize := by rw [← hstop, Nat.one_mul]
  have hcount : bs.length * blockSize + blockSize = dir.blocks.length * blockSize := by
    rw [hblocks, List.length_cons, Nat.succ_mul]
  have hnext0 : pmfsNextEntry b 0 = pmfsDirRecLen 1 := by rw [pmfsNextEntry, hlen0, Nat.zero_add]
  have hnext1 : pmfsNextEntry b (pmfsDirRecLen 1) = pmfsDirRecLen 1 + len := by
    rw [pmfsNextEntry, hlen1]
  rw [pmfsEmptyDir, ← hcount, if_neg]
  · rw [hblocks, List.getElem?_cons_zero]
    dsimp only
    rw [hnext0, if_neg, hlen0, hlen1, hnext1]
    · have htiled : Tiled (b :: bs) _ := .cons htiles hbs
      have hfit : pmfsDirRecLen 1 + len + span rest ≤ (b :: bs).length * blockSize := by
        rw [hspan, ← hblocks, ← hcount]
        omega
      rw [emptyFrom_eq hrest hfit, hspan, emptyFrom_blocks htiled (by simp), List.drop_one,
        List.tail_cons]
    · simp [hino0, hino1, hdot, hdotdot, hparent]
  · rw [blockSize, pmfsDirRecLen, pmfsDirRecLen]
    omega

theorem unused_iff : unused es ↔ bindings es = [] := by
  simp [unused, bindings, Dirent.binding, List.flatMap_eq_nil_iff]

/-- What is bound behind `.` and `..`. -/
theorem Lists.rest {len : ℕ} {rest : List Dirent}
    (h : Lists dir parent m ((⟨dir.iIno, pmfsDirRecLen 1, dot⟩ :: ⟨parent, len, dotdot⟩ :: rest) ::
      ess')) : Maps (bindings rest ++ contents ess') m := by
  have hcontents : contents ((⟨dir.iIno, pmfsDirRecLen 1, dot⟩ :: ⟨parent, len, dotdot⟩ :: rest) ::
      ess') = (dot, dir.iIno) :: (dotdot, parent) :: (bindings rest ++ contents ess') := by
    simp [contents, bindings, Dirent.binding, h.iIno_pos, h.parent_pos]
  have hmaps := hcontents ▸ h.maps
  have hm : Function.update (Function.update (withDots dir.iIno parent m) dot none) dotdot none =
      m := by
    funext name
    simp only [withDots, Function.update_apply]
    split
    · rw [‹name = dotdot›, h.dotdot_free]
    · split
      · rw [‹name = dot›, h.dot_free]
      · rfl
  exact hm ▸ hmaps.of_cons.of_cons

/-- `pmfs_empty_dir` accepts a directory that binds no other name. -/
theorem Houses.empty_iff (h : Houses dir parent m) :
    pmfsEmptyDir dir ↔ ∀ name, m name = none := by
  obtain ⟨ess, h⟩ := h
  obtain ⟨len, rest, ess', rfl⟩ := h.dots
  have hrest := h.rest
  rw [pmfsEmptyDir_eq h.tiled rfl h.terminated h.parent_pos, Bool.and_eq_true, unused_iff]
  have hall : ess'.all unused ↔ contents ess' = [] := by
    simp only [List.all_eq_true, unused_iff, contents, List.flatMap_eq_nil_iff]
  rw [hall]
  constructor
  · rintro ⟨hone, hother⟩ name
    rw [hone, hother] at hrest
    exact hrest.eq_none (by simp)
  · intro hnone
    rw [← List.append_eq_nil_iff, List.eq_nil_iff_forall_not_mem]
    rintro ⟨name, i⟩ hmem
    have := (hrest.mem_iff name i).mp hmem
    rw [hnone] at this
    cases this

/-! ## Calls that name neither -/

theorem cons_cons_eq_append {α : Type*} {x y e : α} {rest pre post : List α}
    (h : x :: y :: rest = pre ++ e :: post) :
    (pre = [] ∧ e = x ∧ post = y :: rest) ∨ (pre = [x] ∧ e = y ∧ post = rest) ∨
      ∃ pre', pre = x :: y :: pre' ∧ rest = pre' ++ e :: post := by
  match pre, h with
  | [], h =>
    cases h
    exact .inl ⟨rfl, rfl, rfl⟩
  | [_], h =>
    cases h
    exact .inr (.inl ⟨rfl, rfl, rfl⟩)
  | _ :: _ :: pre', h =>
    simp only [List.cons_append, List.cons.injEq] at h
    obtain ⟨rfl, rfl, rfl⟩ := h
    exact .inr (.inr ⟨pre', rfl, rfl⟩)

/-- `.` has no room for another name. -/
theorem not_hasRoom_dot {n : ℕ} (hi : iIno ≠ 0) :
    ¬Dirent.HasRoom ⟨iIno, pmfsDirRecLen 1, dot⟩ (pmfsDirRecLen n) := by
  have := add_le_pmfsDirRecLen n
  have hdot : pmfsDirRecLen dot.length = pmfsDirRecLen 1 := rfl
  rw [Dirent.HasRoom, Dirent.used, if_pos hi, hdot]
  dsimp only
  omega

theorem DotsFirst.inserts (h : DotsFirst iIno parent ess) (hi : iIno ≠ 0) (hp : parent ≠ 0)
    (hone : OneBlock (Inserts name inode) ess ess') : DotsFirst iIno parent ess' := by
  obtain ⟨len, rest, tail, rfl⟩ := h
  cases hone with
  | there es hone => exact ⟨len, rest, _, rfl⟩
  | here ess hins =>
    generalize hes : (⟨iIno, pmfsDirRecLen 1, dot⟩ :: ⟨parent, len, dotdot⟩ :: rest) = es at hins
    obtain ⟨pre, post, e, hroom⟩ := hins
    obtain ⟨-, rfl, -⟩ | ⟨rfl, rfl, rfl⟩ | ⟨pre, rfl, rfl⟩ := cons_cons_eq_append hes
    · exact absurd hroom (not_hasRoom_dot hi)
    · rw [Dirent.split, if_pos hp]
      exact ⟨_, _, _, rfl⟩
    · exact ⟨len, _, _, rfl⟩

theorem DotsFirst.added (h : DotsFirst iIno parent ess) (hi : iIno ≠ 0) (hp : parent ≠ 0)
    (hadded : Added name inode ess ess') : DotsFirst iIno parent ess' := by
  cases hadded with
  | inPlace hone => exact h.inserts hi hp hone
  | grown =>
    obtain ⟨len, rest, tail, rfl⟩ := h
    exact ⟨len, rest, _, rfl⟩

theorem DotsFirst.unlinks (h : DotsFirst iIno parent ess) (hdot : name ≠ dot)
    (hdotdot : name ≠ dotdot) (hone : OneBlock (Unlinks name) ess ess') :
    DotsFirst iIno parent ess' := by
  obtain ⟨len, rest, tail, rfl⟩ := h
  cases hone with
  | there es hone => exact ⟨len, rest, _, rfl⟩
  | here ess hun =>
    generalize hes : (⟨iIno, pmfsDirRecLen 1, dot⟩ :: ⟨parent, len, dotdot⟩ :: rest) = es at hun
    cases hun with
    | merge pre post p e hlive hname =>
      obtain ⟨rfl, rfl, hpost⟩ | ⟨rfl, rfl, rfl⟩ | ⟨pre, rfl, rfl⟩ := cons_cons_eq_append hes
      · obtain ⟨rfl, -⟩ := List.cons.inj hpost
        exact absurd hname.symm hdotdot
      · exact ⟨_, _, _, rfl⟩
      · exact ⟨len, _, _, rfl⟩
    | head post e hlive hname =>
      obtain ⟨rfl, -⟩ := List.cons.inj hes
      exact absurd hname.symm hdot

theorem DotsFirst.retargets (h : DotsFirst iIno parent ess) (hdot : name ≠ dot)
    (hdotdot : name ≠ dotdot) (hone : OneBlock (Retargets name inode) ess ess') :
    DotsFirst iIno parent ess' := by
  obtain ⟨len, rest, tail, rfl⟩ := h
  cases hone with
  | there es hone => exact ⟨len, rest, _, rfl⟩
  | here ess hre =>
    generalize hes : (⟨iIno, pmfsDirRecLen 1, dot⟩ :: ⟨parent, len, dotdot⟩ :: rest) = es at hre
    obtain ⟨pre, post, e, hlive, hname⟩ := hre
    obtain ⟨-, rfl, -⟩ | ⟨-, rfl, -⟩ | ⟨pre, rfl, rfl⟩ := cons_cons_eq_append hes
    · exact absurd hname.symm hdot
    · exact absurd hname.symm hdotdot
    · exact ⟨len, _, _, rfl⟩

/-! ## The zero bytes -/

/-- What the entry itself needs stays, except for its length. -/
theorem insertDirent_of_used {x : ℕ} (hx : x < de + (direntAt b de).used)
    (hlen : x < de + 8 ∨ de + 10 ≤ x) : insertDirent b de name inode x = b x := by
  rw [Dirent.used, direntAt_ino, length_name_direntAt] at hx
  rw [insertDirent]
  split at hx
  · rw [if_pos ‹_›, writeDirent_of_outside (by omega), setDeLen_of_outside hlen,
      setDeLen_of_outside (by omega)]
  · rw [if_neg ‹_›, writeDirent_of_outside (by omega)]

section

variable {len : ℕ} {pre rest : List Dirent}
  (h : Tiles b 0 (⟨iIno, pmfsDirRecLen 1, dot⟩ :: ⟨parent, len, dotdot⟩ :: rest) blockSize)
  (hes : ⟨iIno, pmfsDirRecLen 1, dot⟩ :: ⟨parent, len, dotdot⟩ :: rest = pre ++ e :: post)

include h hes

/-- An entry other than `.` is `..` or starts at byte 32 or later. -/
theorem span_of_ne_dot (hdot : ¬(pre = [] ∧ e = ⟨iIno, pmfsDirRecLen 1, dot⟩)) :
    (span pre = 16 ∧ e = ⟨parent, len, dotdot⟩) ∨ 32 ≤ span pre := by
  obtain ⟨-, -, -, hfits, -⟩ := h
  have hmin := hfits.minimal
  dsimp only [pmfsDirRecLen_one] at hmin
  obtain ⟨rfl, rfl, -⟩ | ⟨rfl, rfl, -⟩ | ⟨pre, rfl, rfl⟩ := cons_cons_eq_append hes
  · exact absurd ⟨rfl, rfl⟩ hdot
  · exact .inl ⟨rfl, rfl⟩
  · rw [span_cons, span_cons, pmfsDirRecLen_one]
    dsimp only
    omega

theorem insertDirent_terminated (hi : iIno ≠ 0) (hp : parent ≠ 0)
    (hroom : e.HasRoom (pmfsDirRecLen name.length)) :
    insertDirent b (span pre) name inode 13 = b 13 ∧
      insertDirent b (span pre) name inode 30 = b 30 := by
  have hspan := span_of_ne_dot h hes fun hdot => not_hasRoom_dot hi (hdot.2 ▸ hroom)
  rw [hes, tiles_append, Nat.zero_add] at h
  obtain ⟨-, hat, -⟩ := h
  rcases hspan with ⟨hspan, rfl⟩ | hspan
  · have hused : (direntAt b (span pre)).used = 16 := by
      rw [hat, Dirent.used, if_pos hp]
      exact show pmfsDirRecLen dotdot.length = 16 by decide
    exact ⟨insertDirent_of_used (by omega) (by omega), insertDirent_of_used (by omega) (by omega)⟩
  · exact ⟨insertDirent_of_used (by omega) (by omega), insertDirent_of_used (by omega) (by omega)⟩

theorem setIno_terminated (hdot : e.name ≠ dot) (hdotdot : e.name ≠ dotdot) :
    setIno b (span pre) inode 13 = b 13 ∧ setIno b (span pre) inode 30 = b 30 := by
  rcases span_of_ne_dot h hes fun hfirst => hdot (by rw [hfirst.2]) with ⟨-, rfl⟩ | hspan
  · exact absurd rfl hdotdot
  · exact ⟨setIno_of_outside (by omega), setIno_of_outside (by omega)⟩

end

theorem span_aligned {stop : ℕ} (h : Tiles b de es stop) :
    span es % 4 = 0 ∧ (span es = 0 ∨ 16 ≤ span es) := by
  induction es generalizing de with
  | nil => simp
  | cons e es ih =>
    obtain ⟨-, hfits, htail⟩ := h
    have haligned := hfits.aligned
    have hmin := hfits.minimal
    rw [pmfsDirRecLen_one] at hmin
    have := (ih htail).1
    rw [span_cons]
    omega

/-- The length of an entry does not lie where the zero bytes are. -/
theorem setDeLen_terminated {v : ℕ} {pre : List Dirent}
    (h : Tiles b 0 (pre ++ e :: post) blockSize) :
    setDeLen b (span pre) v 13 = b 13 ∧ setDeLen b (span pre) v 30 = b 30 := by
  have := span_aligned (tiles_append.mp h).1
  exact ⟨setDeLen_of_outside (by omega), setDeLen_of_outside (by omega)⟩

theorem addToBlocks_terminated (h : Tiled blocks ess) (hdots : DotsFirst iIno parent ess)
    (hi : iIno ≠ 0) (hp : parent ≠ 0) (hterm : Terminated blocks)
    (hadd : addToBlocks name inode blocks = some (.ok blocks')) : Terminated blocks' := by
  obtain ⟨len, rest, tail, rfl⟩ := hdots
  cases h with
  | @cons b _ bs _ hb hbs =>
    obtain ⟨h13, h30⟩ := hterm b rfl
    have hpos := add_le_pmfsDirRecLen name.length
    rw [addToBlocks, pmfsAddDirentToBuf] at hadd
    rcases findRoom_spec hb (show 0 < pmfsDirRecLen name.length by omega) with
      ⟨pre, e, post, hes, hroom, hfind⟩ | hfind
    · rw [Nat.zero_add] at hfind
      rw [hfind] at hadd
      cases hadd
      have hkept : insertDirent b (span pre) name inode 13 = b 13 ∧
          insertDirent b (span pre) name inode 30 = b 30 :=
        insertDirent_terminated hb hes hi hp hroom
      rintro b' ⟨⟩
      exact ⟨hkept.1.trans h13, hkept.2.trans h30⟩
    · rw [hfind] at hadd
      obtain ⟨r, -, hr⟩ := Option.map_eq_some_iff.mp hadd
      cases r with
      | error e => cases hr
      | ok bs' =>
        cases hr
        rintro b' ⟨⟩
        exact ⟨h13, h30⟩

theorem pmfsAddEntry_terminated {alloc : Except Errno Block} {dir' : DirInode}
    (h : Tiled dir.blocks ess) (hdots : DotsFirst iIno parent ess) (hi : iIno ≠ 0)
    (hp : parent ≠ 0) (hterm : Terminated dir.blocks)
    (hadd : pmfsAddEntry dir name inode alloc = some (.ok dir')) : Terminated dir'.blocks := by
  unfold pmfsAddEntry at hadd
  split at hadd
  · cases hadd
  split at hadd
  · cases hadd
  · cases hadd
    exact addToBlocks_terminated h hdots hi hp hterm ‹_›
  · cases alloc with
    | error e => cases hadd
    | ok b =>
      cases hadd
      obtain ⟨len, rest, tail, rfl⟩ := hdots
      cases hd : dir.blocks with
      | nil =>
        rw [hd] at h
        cases h
      | cons c cs =>
        rw [hd] at hterm
        exact hterm
  · cases hadd

theorem removeFromBlocks_terminated (h : Tiled blocks ess) (hdots : DotsFirst iIno parent ess)
    (hdot : name ≠ dot) (hdotdot : name ≠ dotdot) (hterm : Terminated blocks)
    (hremove : removeFromBlocks name blocks = some blocks') : Terminated blocks' := by
  obtain ⟨len, rest, tail, rfl⟩ := hdots
  cases h with
  | @cons b _ bs _ hb hbs =>
    obtain ⟨h13, h30⟩ := hterm b rfl
    rw [removeFromBlocks, pmfsSearchDirblock] at hremove
    rcases searchFrom_spec name none hb with ⟨pre, e, post, hes, hlive, rfl, hfound⟩ | ⟨-, hfound⟩
    · rw [hfound] at hremove
      cases hremove
      rintro b' ⟨⟩
      rcases pre.eq_nil_or_concat with rfl | ⟨pre, p, rfl⟩
      · obtain ⟨rfl, -⟩ := List.cons.inj hes
        exact absurd rfl hdot
      · rw [List.concat_eq_append] at hes ⊢
        simp only [prevOf_concat, Nat.zero_add]
        rw [hes, List.append_assoc] at hb
        have hkept := fun v => setDeLen_terminated (v := v) hb
        exact ⟨(hkept _).1.trans h13, (hkept _).2.trans h30⟩
    · rw [hfound] at hremove
      obtain ⟨r, -, hr⟩ := Option.map_eq_some_iff.mp hremove
      cases hr
      rintro b' ⟨⟩
      exact ⟨h13, h30⟩

theorem pmfsRemoveEntry_terminated {dir' : DirInode} (h : Tiled dir.blocks ess)
    (hdots : DotsFirst iIno parent ess) (hdot : name ≠ dot) (hdotdot : name ≠ dotdot)
    (hterm : Terminated dir.blocks) (hremove : pmfsRemoveEntry dir name = .ok dir') :
    Terminated dir'.blocks := by
  rw [pmfsRemoveEntry] at hremove
  split at hremove
  · cases hremove
  split at hremove
  · cases hremove
    exact removeFromBlocks_terminated h hdots hdot hdotdot hterm ‹_›
  · cases hremove

/-! ## What the calls do to the map -/

/-- The inode number of the entry that a lookup has found is changed in place. -/
def setEntryIno (dir : DirInode) (entry : ℕ × ℕ) (inode : ℕ) : DirInode :=
  { dir with blocks := dir.blocks.modify entry.1 fun b => setIno b entry.2 inode }

theorem setEntryIno_spec (h : Tiled blocks ess) (hat : EntryAt ess k de e) (hlive : e.ino ≠ 0)
    (hname : e.name = name) (hinode : inode < 2 ^ 64) :
    ∃ ess', Tiled (blocks.modify k fun b => setIno b de inode) ess' ∧
      OneBlock (Retargets name inode) ess ess' := by
  obtain ⟨pre, post, hget, rfl⟩ := hat
  induction h generalizing k with
  | nil => simp at hget
  | @cons b es bs ess hb hbs ih =>
    cases k with
    | zero =>
      obtain rfl : es = pre ++ e :: post := by simpa using hget
      have hset := hb.setIno hinode hlive
      rw [Nat.zero_add] at hset
      exact ⟨_, .cons hset hbs, .here ess ⟨pre, post, e, hlive, hname⟩⟩
    | succ k =>
      obtain ⟨ess', htiled, hone⟩ := ih (by simpa using hget)
      exact ⟨es :: ess', .cons hb htiled, .there es hone⟩

theorem setEntryIno_terminated (h : Tiled blocks ess) (hdots : DotsFirst iIno parent ess)
    (hat : EntryAt ess k de e) (hdot : e.name ≠ dot) (hdotdot : e.name ≠ dotdot)
    (hterm : Terminated blocks) : Terminated (blocks.modify k fun b => setIno b de inode) := by
  obtain ⟨len, rest, tail, rfl⟩ := hdots
  obtain ⟨pre, post, hget, rfl⟩ := hat
  cases h with
  | @cons b _ bs _ hb hbs =>
    obtain ⟨h13, h30⟩ := hterm b rfl
    cases k with
    | zero =>
      have hes := Option.some.inj hget
      have hkept : setIno b (span pre) inode 13 = b 13 ∧ setIno b (span pre) inode 30 = b 30 :=
        setIno_terminated hb hes hdot hdotdot
      rintro b' ⟨⟩
      exact ⟨hkept.1.trans h13, hkept.2.trans h30⟩
    | succ k =>
      rintro b' ⟨⟩
      exact ⟨h13, h30⟩

/-- The live entry of the name is the one at the given block and offset. -/
def NamedBy (blocks : List Block) (name : Name) (entry : ℕ × ℕ) : Prop :=
  ∃ ess e, Tiled blocks ess ∧ EntryAt ess entry.1 entry.2 e ∧ e.ino ≠ 0 ∧ e.name = name

theorem Houses.hint (h : Houses dir parent m) (k : ℕ) :
    Houses { dir with startLookup := k } parent m := by
  obtain ⟨ess, h⟩ := h
  exact ⟨ess, h.tiled, h.dots, h.terminated, h.maps, h.dot_free, h.dotdot_free, h.iIno_pos,
    h.parent_pos⟩

theorem Houses.lookup (h : Houses dir parent m) (hdot : name ≠ dot) (hdotdot : name ≠ dotdot) :
    ∃ r, pmfsInodeByName dir.blocks.length dir name = some r ∧ r.iNo = (m name).getD 0 ∧
      (∃ k, r.dir = { dir with startLookup := k }) ∧
      ((r.resEntry = none ∧ m name = none) ∨
        ∃ entry, r.resEntry = some entry ∧ m name ≠ none ∧ NamedBy dir.blocks name entry) := by
  obtain ⟨ess, h⟩ := h
  have hne : ess ≠ [] := by
    obtain ⟨len, rest, tail, rfl⟩ := h.dots
    exact List.cons_ne_nil _ _
  have hm : withDots dir.iIno parent m name = m name := withDots_of_ne hdot hdotdot
  obtain ⟨r, hr, ⟨k, de, e, hat, hlive, hname, rfl⟩ | ⟨hno, rfl⟩⟩ :=
    pmfsInodeByName_spec name h.tiled hne le_rfl
  · have hmem : (name, e.ino) ∈ contents ess := by
      obtain ⟨pre, post, hes, -⟩ := hat
      exact mem_contents.mpr ⟨_, List.mem_of_getElem? hes, e, by simp, hlive, hname, rfl⟩
    have hbound : m name = some e.ino := hm ▸ (h.maps.mem_iff _ _).mp hmem
    refine ⟨_, hr, by rw [hbound, Option.getD_some], ⟨k, rfl⟩, .inr ⟨(k, de), rfl, ?_, ?_⟩⟩
    · simp [hbound]
    · exact ⟨ess, e, h.tiled, hat, hlive, hname⟩
  · have hnone : m name = none := hm ▸ h.maps.eq_none hno
    exact ⟨_, hr, by rw [hnone, Option.getD_none], ⟨dir.startLookup, rfl⟩, .inl ⟨rfl, hnone⟩⟩

theorem Houses.setEntryIno (h : Houses dir parent m) (hdot : name ≠ dot) (hdotdot : name ≠ dotdot)
    {entry : ℕ × ℕ} (hentry : NamedBy dir.blocks name entry) (hpos : inode ≠ 0)
    (hinode : inode < 2 ^ 64) :
    Houses (setEntryIno dir entry inode) parent (Function.update m name (some inode)) := by
  obtain ⟨ess, h⟩ := h
  obtain ⟨ess₁, e, htiled₁, hat, hlive, hname⟩ := hentry
  obtain rfl := Tiled.unique h.tiled htiled₁
  obtain ⟨ess', htiled, hone⟩ := setEntryIno_spec h.tiled hat hlive hname hinode
  obtain ⟨i, l, hi, hperm, hperm'⟩ := hone.retargets_perm hpos
  refine ⟨ess', htiled, h.dots.retargets hdot hdotdot hone, ?_, ?_, ?_, ?_, h.iIno_pos,
    h.parent_pos⟩
  · subst hname
    exact setEntryIno_terminated h.tiled h.dots hat hdot hdotdot h.terminated
  · rw [withDots_update hdot hdotdot]
    exact ((h.maps.perm hperm.symm).set).perm hperm'
  · rw [Function.update_of_ne hdot.symm, h.dot_free]
  · rw [Function.update_of_ne hdotdot.symm, h.dotdot_free]

/-- A name is added, unless a block is needed and there is none. -/
theorem Houses.add (h : Houses dir parent m) (alloc : Except Errno Block) (hne : name ≠ [])
    (hlen : name.length ≤ pmfsNameLen) (hdot : name ≠ dot) (hdotdot : name ≠ dotdot)
    (hnew : m name = none) (hpos : inode ≠ 0) (hinode : inode < 2 ^ 64) :
    (∃ e, alloc = .error e ∧ pmfsAddEntry dir name inode alloc = some (.error e)) ∨
    ∃ dir', pmfsAddEntry dir name inode alloc = some (.ok dir') ∧
      Houses dir' parent (Function.update m name (some inode)) := by
  obtain ⟨ess, h⟩ := h
  have hm : withDots dir.iIno parent m name = none := (withDots_of_ne hdot hdotdot).trans hnew
  rcases pmfsAddEntry_spec alloc h.tiled hne hlen hinode with
    herror | ⟨blocks, ess', hok, htiled, hadded⟩
  · exact .inl herror
  · refine .inr ⟨_, hok, ess', htiled, h.dots.added h.iIno_pos h.parent_pos hadded, ?_, ?_, ?_, ?_,
      h.iIno_pos, h.parent_pos⟩
    · exact pmfsAddEntry_terminated h.tiled h.dots h.iIno_pos h.parent_pos h.terminated hok
    · rw [withDots_update hdot hdotdot]
      exact (h.maps.cons hm).perm (hadded.perm hpos)
    · rw [Function.update_of_ne hdot.symm, h.dot_free]
    · rw [Function.update_of_ne hdotdot.symm, h.dotdot_free]

/-- A name that is there is removed. -/
theorem Houses.remove (h : Houses dir parent m) (hdot : name ≠ dot) (hdotdot : name ≠ dotdot)
    (hname : m name ≠ none) :
    ∃ dir', pmfsRemoveEntry dir name = .ok dir' ∧
      Houses dir' parent (Function.update m name none) := by
  obtain ⟨ess, h⟩ := h
  have hm : withDots dir.iIno parent m name = m name := withDots_of_ne hdot hdotdot
  rcases pmfsRemoveEntry_spec name h.tiled with
    ⟨-, hnone⟩ | ⟨blocks, ess', hok, htiled, hone⟩
  · exact absurd (hm ▸ h.maps.eq_none hnone) hname
  · obtain ⟨i, -, hperm⟩ := hone.unlinks_perm
    refine ⟨_, hok, ess', htiled, h.dots.unlinks hdot hdotdot hone, ?_, ?_, ?_, ?_, h.iIno_pos,
      h.parent_pos⟩
    · exact pmfsRemoveEntry_terminated h.tiled h.dots hdot hdotdot h.terminated hok
    · rw [withDots_update hdot hdotdot]
      exact (h.maps.perm hperm.symm).of_cons
    · rw [Function.update_of_ne hdot.symm, h.dot_free]
    · rw [Function.update_of_ne hdotdot.symm, h.dotdot_free]

theorem strcpyName_zero : strcpyName b de name (de + 12 + name.length) = 0 := writeBytes_last

theorem mkdirBlock_terminated :
    mkdirBlock iIno parent b 13 = 0 ∧ mkdirBlock iIno parent b 30 = 0 := by
  rw [mkdirBlock_eq]
  constructor
  · rw [pmfsDirRecLen_one, strcpyName_of_outside (by omega), setNameLen_of_outside (by omega),
      setDeLen_of_outside (by omega), setIno_of_outside (by omega)]
    exact strcpyName_zero
  · exact strcpyName_zero

theorem houses_mkdirDir (hi : iIno ≠ 0) (hi' : iIno < 2 ^ 64) (hp : parent ≠ 0)
    (hp' : parent < 2 ^ 64) : Houses (mkdirDir iIno parent b) parent fun _ => none := by
  refine ⟨_, .cons (tiles_mkdirBlock hi' hp') .nil, ⟨_, _, _, rfl⟩, ?_, maps_mkdir hi hp, rfl, rfl,
    hi, hp⟩
  rintro c ⟨⟩
  exact mkdirBlock_terminated

/-- `pmfs_get_parent`: the inode number in `..`. -/
def pmfsGetParent (fuel : ℕ) (dir : DirInode) : Option (Except Errno ℕ) :=
  (pmfsInodeByName fuel dir dotdot).map fun r =>
    match r.resEntry with
    | none => .error .enoent
    | some (k, de) =>
      let ino := ino (r.dir.blocks.getD k fun _ => 0) de
      if ino = 0 then .error .enoent else .ok ino

theorem Houses.getParent (h : Houses dir parent m) :
    pmfsGetParent dir.blocks.length dir = some (.ok parent) := by
  obtain ⟨ess, h⟩ := h
  have hne : ess ≠ [] := by
    obtain ⟨len, rest, tail, rfl⟩ := h.dots
    exact List.cons_ne_nil _ _
  rw [pmfsGetParent]
  obtain ⟨r, hr, ⟨k, de, e, hat, hlive, hname, rfl⟩ | ⟨hno, rfl⟩⟩ :=
    pmfsInodeByName_spec dotdot h.tiled hne le_rfl
  · have hmem : (dotdot, e.ino) ∈ contents ess := by
      obtain ⟨pre, post, hes, -⟩ := hat
      exact mem_contents.mpr ⟨_, List.mem_of_getElem? hes, e, by simp, hlive, hname, rfl⟩
    have hbound := (h.maps.mem_iff _ _).mp hmem
    rw [withDots_dotdot] at hbound
    cases hbound
    rw [hr, Option.map_some]
    dsimp only
    rw [Tiled.ino_eq h.tiled hat, if_neg hlive]
  · have hnone := h.maps.eq_none hno
    rw [withDots_dotdot] at hnone
    cases hnone

end Wpmfs.Dir
