import Mathlib.Algebra.Order.Ring.Int
import Mathlib.Algebra.Order.Ring.Nat
import Mathlib.Data.List.Basic
import Wpmfs.Dir.Basic

/-!
# Blocks tiled by entries

`Tiles b o es stop` says that the entries `es` lie one after another in the block `b` and fill it
from `o` up to `stop`. Each function that walks over a block is described by its effect on the list
of entries: `searchFrom_spec`, `findRoom_spec`, `tiles_insertDirent`, `tiles_unlinkDirent`.
-/

namespace Wpmfs.Dir

open Bytes

variable {b b' : Block} {o de stop inode reclen : ℕ} {pde : Option ℕ} {name child : Name}
  {e p : Dirent} {es es' pre mid mid' post : List Dirent}

/-- What a block says about an entry. -/
structure Dirent where
  ino : ℕ
  len : ℕ
  name : Name
deriving DecidableEq

def direntAt (b : Block) (de : ℕ) : Dirent :=
  ⟨ino b de, deLen b de, readBytes b (de + 12) (nameLen b de)⟩

/-- The length of an entry is a multiple of 4 and leaves room for its name. -/
structure Dirent.Fits (e : Dirent) : Prop where
  aligned : e.len % 4 = 0
  minimal : pmfsDirRecLen 1 ≤ e.len
  room : pmfsDirRecLen e.name.length ≤ e.len
  named : e.ino ≠ 0 → e.name ≠ []

/-- The number of bytes that entries fill. -/
def span (es : List Dirent) : ℕ := (es.map Dirent.len).sum

@[simp] theorem span_nil : span [] = 0 := rfl

@[simp] theorem span_cons : span (e :: es) = e.len + span es := by simp [span]

@[simp] theorem span_append : span (pre ++ post) = span pre + span post := by simp [span]

def Tiles (b : Block) : ℕ → List Dirent → ℕ → Prop
  | o, [], stop => o = stop
  | o, e :: es, stop => direntAt b o = e ∧ e.Fits ∧ Tiles b (o + e.len) es stop

/-! ## Lengths -/

theorem add_le_pmfsDirRecLen (n : ℕ) : n + 12 ≤ pmfsDirRecLen n := by
  unfold pmfsDirRecLen
  omega

theorem pmfsDirRecLen_mod (n : ℕ) : pmfsDirRecLen n % 4 = 0 := by
  unfold pmfsDirRecLen
  omega

theorem pmfsDirRecLen_one : pmfsDirRecLen 1 = 16 := rfl

theorem one_le_length (h : name ≠ []) : 1 ≤ name.length := List.length_pos_iff.mpr h

theorem minimal_le_pmfsDirRecLen (h : name ≠ []) : pmfsDirRecLen 1 ≤ pmfsDirRecLen name.length := by
  have := one_le_length h
  unfold pmfsDirRecLen
  omega

theorem Dirent.Fits.of_name {n : ℕ} (haligned : n % 4 = 0) (hroom : pmfsDirRecLen name.length ≤ n)
    (hne : name ≠ []) : Dirent.Fits ⟨inode, n, name⟩ :=
  ⟨haligned, (minimal_le_pmfsDirRecLen hne).trans hroom, hroom, fun _ => hne⟩

theorem pmfsDirRecLen_le (h : name.length ≤ pmfsNameLen) : pmfsDirRecLen name.length ≤ 268 := by
  unfold pmfsNameLen at h
  unfold pmfsDirRecLen
  omega

/-! ## Reading an entry -/

@[simp] theorem direntAt_ino : (direntAt b de).ino = ino b de := rfl

@[simp] theorem direntAt_len : (direntAt b de).len = deLen b de := rfl

@[simp] theorem length_name_direntAt : (direntAt b de).name.length = nameLen b de :=
  length_readBytes

/-- An entry depends on its header and its name only. -/
theorem direntAt_congr (h : ∀ x, de ≤ x → x < de + 12 + nameLen b de → b' x = b x) :
    direntAt b' de = direntAt b de := by
  have hlen : nameLen b' de = nameLen b de :=
    readLE_congr fun x hx hlt => h x (by omega) (by omega)
  have hino : ino b' de = ino b de := readLE_congr fun x hx hlt => h x hx (by omega)
  have hde : deLen b' de = deLen b de := readLE_congr fun x hx hlt => h x (by omega) (by omega)
  have hname : readBytes b' (de + 12) (nameLen b de) = readBytes b (de + 12) (nameLen b de) :=
    readBytes_congr fun x hx hlt => h x (by omega) (by omega)
  rw [direntAt, direntAt, hlen, hino, hde, hname]

theorem pmfsMatch_iff :
    pmfsMatch child b de ↔ (direntAt b de).ino ≠ 0 ∧ (direntAt b de).name = child := by
  simp only [pmfsMatch, Bool.and_eq_true, decide_eq_true_eq, direntAt_ino]
  constructor
  · rintro ⟨⟨hlen, hino⟩, hname⟩
    exact ⟨hino, by rw [direntAt, ← hlen]; exact hname⟩
  · rintro ⟨hino, rfl⟩
    rw [length_name_direntAt]
    exact ⟨⟨rfl, hino⟩, rfl⟩

theorem errorMsg_eq_none (hfits : (direntAt b de).Fits) (h : de + deLen b de ≤ blockSize) :
    errorMsg b de = none := by
  obtain ⟨haligned, hmin, hroom, -⟩ := hfits
  rw [direntAt_len] at haligned hmin hroom
  rw [length_name_direntAt] at hroom
  rw [errorMsg, if_neg (by omega), if_neg (by omega), if_neg (by omega), if_neg (by omega)]

/-! ## Tilings -/

theorem Tiles.stop_eq (h : Tiles b o es stop) : stop = o + span es := by
  induction es generalizing o with
  | nil => exact h.symm
  | cons e es ih =>
    have := ih h.2.2
    rw [span_cons]
    omega

theorem tiles_append :
    Tiles b o (pre ++ post) stop ↔
      Tiles b o pre (o + span pre) ∧ Tiles b (o + span pre) post stop := by
  induction pre generalizing o with
  | nil => simp [Tiles]
  | cons e pre ih =>
    rw [List.cons_append, Tiles, Tiles, ih, span_cons, Nat.add_assoc]
    tauto

theorem Tiles.congr (h : Tiles b o es stop) (hb : ∀ x, o ≤ x → x < stop → b' x = b x) :
    Tiles b' o es stop := by
  induction es generalizing o with
  | nil => exact h
  | cons e es ih =>
    obtain ⟨rfl, hfits, htail⟩ := h
    have hstop := htail.stop_eq
    have hroom := hfits.room
    have hname := add_le_pmfsDirRecLen (nameLen b o)
    rw [length_name_direntAt] at hroom
    refine ⟨direntAt_congr fun x hx hlt => hb x hx (by omega), hfits, ih htail ?_⟩
    exact fun x hx hlt => hb x (by omega) hlt

/-- The bytes determine the entries. -/
theorem Tiles.unique (h : Tiles b o es stop) (h' : Tiles b o es' stop) : es = es' := by
  induction es generalizing o es' with
  | nil =>
    cases es' with
    | nil => rfl
    | cons e es' =>
      obtain ⟨-, hfits, htail⟩ := h'
      have hmin := hfits.minimal
      have hstop := htail.stop_eq
      have heq : o = stop := h
      rw [pmfsDirRecLen_one] at hmin
      omega
  | cons e es ih =>
    obtain ⟨hat, hfits, htail⟩ := h
    have hmin := hfits.minimal
    have hstop := htail.stop_eq
    rw [pmfsDirRecLen_one] at hmin
    cases es' with
    | nil =>
      have heq : o = stop := h'
      omega
    | cons e' es' =>
      obtain ⟨hat', -, htail'⟩ := h'
      obtain rfl : e = e' := hat.symm.trans hat'
      rw [ih htail htail']

/-- Part of a tiling is replaced by entries that fill the same bytes. -/
theorem Tiles.replace (h : Tiles b o (pre ++ mid ++ post) stop)
    (hout : ∀ x, x < o + span pre ∨ o + span pre + span mid ≤ x → b' x = b x)
    (hmid : Tiles b' (o + span pre) mid' (o + span pre + span mid)) :
    Tiles b' o (pre ++ mid' ++ post) stop := by
  rw [List.append_assoc, tiles_append, tiles_append] at h
  obtain ⟨hpre, -, hpost⟩ := h
  have hstop := hmid.stop_eq
  rw [List.append_assoc, tiles_append, tiles_append]
  refine ⟨hpre.congr fun x _ hx => hout x (.inl hx), ?_, ?_⟩
  · rwa [← hstop]
  · rw [← hstop]
    exact hpost.congr fun x hx _ => hout x (.inr hx)

/-! ## Search -/

/-- The entry before the one that follows `pre`, when the entry before `pre` is `pde`. -/
def prevOf (o : ℕ) (pde : Option ℕ) : List Dirent → Option ℕ
  | [] => pde
  | e :: es => prevOf (o + e.len) (some o) es

theorem prevOf_concat : prevOf o pde (pre ++ [e]) = some (o + span pre) := by
  induction pre generalizing o pde with
  | nil => rfl
  | cons p pre ih =>
    rw [List.cons_append, prevOf, ih, span_cons, Nat.add_assoc]

/-- The search of a tiled block finds the first live entry of the name, or there is none. -/
theorem searchFrom_spec (child : Name) (pde : Option ℕ) (h : Tiles b o es blockSize) :
    (∃ pre e post, es = pre ++ e :: post ∧ e.ino ≠ 0 ∧ e.name = child ∧
      searchFrom b child o pde = .found (o + span pre) (prevOf o pde pre)) ∨
    ((∀ e ∈ es, e.ino ≠ 0 → e.name ≠ child) ∧ searchFrom b child o pde = .notFound) := by
  induction es generalizing o pde with
  | nil =>
    refine .inr ⟨by simp, ?_⟩
    rw [searchFrom, if_neg]
    exact h.not_lt
  | cons e es ih =>
    obtain ⟨rfl, hfits, htail⟩ := h
    have hstop := htail.stop_eq
    have hmin := hfits.minimal
    have hroom := hfits.room
    rw [pmfsDirRecLen_one, direntAt_len] at hmin
    rw [direntAt_len] at hstop hroom
    rw [searchFrom, if_pos (by omega)]
    by_cases hmatch : pmfsMatch child b o
    · obtain ⟨hino, hname⟩ := pmfsMatch_iff.mp hmatch
      have hlen := add_le_pmfsDirRecLen (direntAt b o).name.length
      rw [hname] at hroom hlen
      refine .inl ⟨[], _, es, rfl, hino, hname, ?_⟩
      rw [if_pos ⟨by omega, hmatch⟩, if_pos]
      · rfl
      · rw [pmfsCheckDirEntry, errorMsg_eq_none hfits (by omega)]
        rfl
    · rw [if_neg (by tauto), if_neg (by omega), pmfsNextEntry]
      rcases ih (some o) htail with ⟨pre, e, post, rfl, hino, hname, hfound⟩ | ⟨hno, hfound⟩
      · refine .inl ⟨_ :: pre, e, post, rfl, hino, hname, ?_⟩
        rw [span_cons, ← Nat.add_assoc, prevOf]
        exact hfound
      · refine .inr ⟨?_, hfound⟩
        rintro x (_ | ⟨_, hx⟩) hino hname
        · exact hmatch (pmfsMatch_iff.mpr ⟨hino, hname⟩)
        · exact hno x hx hino hname

/-- What an entry needs for itself. -/
def Dirent.used (e : Dirent) : ℕ := if e.ino ≠ 0 then pmfsDirRecLen e.name.length else 0

/-- An entry that can take `reclen` bytes more. -/
def Dirent.HasRoom (e : Dirent) (reclen : ℕ) : Prop := e.used + reclen ≤ e.len

theorem hasRoom_iff : hasRoom b reclen de ↔ (direntAt b de).HasRoom reclen := by
  rw [hasRoom, Dirent.HasRoom, Dirent.used, length_name_direntAt, direntAt_ino, direntAt_len]
  split <;> simp

theorem findRoom_spec (h : Tiles b o es blockSize) (hpos : 0 < reclen) :
    (∃ pre e post, es = pre ++ e :: post ∧ e.HasRoom reclen ∧
      findRoom b reclen o = some (some (o + span pre))) ∨ findRoom b reclen o = some none := by
  induction es generalizing o with
  | nil =>
    have hend : o = blockSize := h
    rw [findRoom, if_neg (by omega)]
    exact .inr rfl
  | cons e es ih =>
    obtain ⟨rfl, hfits, htail⟩ := h
    have hmin := hfits.minimal
    rw [pmfsDirRecLen_one, direntAt_len] at hmin
    rw [findRoom]
    by_cases hle : o + reclen ≤ blockSize
    · rw [if_pos hle]
      by_cases hhas : hasRoom b reclen o
      · refine .inl ⟨[], direntAt b o, es, rfl, hasRoom_iff.mp hhas, ?_⟩
        rw [if_pos hhas, span_nil, Nat.add_zero]
      · rw [if_neg hhas, if_neg (by omega), pmfsNextEntry]
        rcases ih htail with ⟨pre, e, post, rfl, hroom, hfind⟩ | hfind
        · refine .inl ⟨_ :: pre, e, post, rfl, hroom, ?_⟩
          rw [span_cons, ← Nat.add_assoc]
          exact hfind
        · exact .inr hfind
    · rw [if_neg hle]
      exact .inr rfl

/-! ## Changes -/

section Fields

variable {v n x : ℕ}

theorem setIno_of_outside (h : x < de ∨ de + 8 ≤ x) : setIno b de v x = b x :=
  writeLE_of_outside h

theorem setDeLen_of_outside (h : x < de + 8 ∨ de + 10 ≤ x) : setDeLen b de v x = b x :=
  writeLE_of_outside h

theorem setNameLen_of_outside (h : x < de + 10 ∨ de + 11 ≤ x) : setNameLen b de v x = b x :=
  writeLE_of_outside h

theorem setName_of_outside (h : x < de + 12 ∨ de + 12 + name.length ≤ x) :
    setName b de name x = b x :=
  writeBytes_of_outside h

theorem ino_setIno (hv : v < 2 ^ 64) : ino (setIno b de v) de = v := readLE_writeLE hv

@[simp] theorem ino_setDeLen : ino (setDeLen b de v) de = ino b de :=
  readLE_congr fun _ _ _ => setDeLen_of_outside (by omega)

@[simp] theorem ino_setNameLen : ino (setNameLen b de v) de = ino b de :=
  readLE_congr fun _ _ _ => setNameLen_of_outside (by omega)

@[simp] theorem ino_setName : ino (setName b de name) de = ino b de :=
  readLE_congr fun _ _ _ => setName_of_outside (by omega)

@[simp] theorem deLen_setIno : deLen (setIno b de v) de = deLen b de :=
  readLE_congr fun _ _ _ => setIno_of_outside (by omega)

theorem deLen_setDeLen (hv : v < 2 ^ 16) : deLen (setDeLen b de v) de = v := readLE_writeLE hv

@[simp] theorem deLen_setNameLen : deLen (setNameLen b de v) de = deLen b de :=
  readLE_congr fun _ _ _ => setNameLen_of_outside (by omega)

@[simp] theorem deLen_setName : deLen (setName b de name) de = deLen b de :=
  readLE_congr fun _ _ _ => setName_of_outside (by omega)

@[simp] theorem nameLen_setIno : nameLen (setIno b de v) de = nameLen b de :=
  readLE_congr fun _ _ _ => setIno_of_outside (by omega)

@[simp] theorem nameLen_setDeLen : nameLen (setDeLen b de v) de = nameLen b de :=
  readLE_congr fun _ _ _ => setDeLen_of_outside (by omega)

theorem nameLen_setNameLen (hv : v ≤ pmfsNameLen) : nameLen (setNameLen b de v) de = v :=
  readLE_writeLE (Nat.lt_succ_of_le hv)

@[simp] theorem nameLen_setName : nameLen (setName b de name) de = nameLen b de :=
  readLE_congr fun _ _ _ => setName_of_outside (by omega)

@[simp] theorem name_setIno :
    readBytes (setIno b de v) (de + 12) n = readBytes b (de + 12) n :=
  readBytes_congr fun _ _ _ => setIno_of_outside (by omega)

@[simp] theorem name_setDeLen :
    readBytes (setDeLen b de v) (de + 12) n = readBytes b (de + 12) n :=
  readBytes_congr fun _ _ _ => setDeLen_of_outside (by omega)

theorem direntAt_setIno (hv : v < 2 ^ 64) :
    direntAt (setIno b de v) de = { direntAt b de with ino := v } := by
  simp [direntAt, ino_setIno hv]

theorem direntAt_setDeLen (hv : v < 2 ^ 16) :
    direntAt (setDeLen b de v) de = { direntAt b de with len := v } := by
  simp [direntAt, deLen_setDeLen hv]

theorem writeDirent_of_outside (h : x < de ∨ de + 12 + name.length ≤ x) :
    writeDirent b de name v x = b x := by
  rw [writeDirent, setName_of_outside (by omega), setNameLen_of_outside (by omega),
    setIno_of_outside (by omega)]

theorem direntAt_writeDirent (hv : v < 2 ^ 64) (hname : name.length ≤ pmfsNameLen) :
    direntAt (writeDirent b de name v) de = ⟨v, deLen b de, name⟩ := by
  simp only [direntAt, writeDirent, ino_setName, ino_setNameLen, ino_setIno hv, deLen_setName,
    deLen_setNameLen, deLen_setIno, nameLen_setName, nameLen_setNameLen hname]
  rw [setName, readBytes_writeBytes]

end Fields

/-- What an entry becomes when a name is put into it: a live entry keeps what its own name needs. -/
def Dirent.split (e : Dirent) (name : Name) (inode : ℕ) : List Dirent :=
  if e.ino ≠ 0 then
    [{ e with len := pmfsDirRecLen e.name.length },
      ⟨inode, e.len - pmfsDirRecLen e.name.length, name⟩]
  else [⟨inode, e.len, name⟩]

/-- The bytes of an entry into which a name has been put. -/
theorem tiles_split (hfits : (direntAt b de).Fits)
    (hroom : (direntAt b de).HasRoom (pmfsDirRecLen name.length))
    (hne : name ≠ []) (hname : name.length ≤ pmfsNameLen) (hinode : inode < 2 ^ 64)
    (hlen : deLen b de < 2 ^ 16) :
    Tiles (insertDirent b de name inode) de ((direntAt b de).split name inode)
      (de + deLen b de) := by
  have hmin := minimal_le_pmfsDirRecLen hne
  have haligned := hfits.aligned
  rw [Dirent.HasRoom, Dirent.used, direntAt_ino, direntAt_len, length_name_direntAt] at hroom
  rw [direntAt_len] at haligned
  rw [insertDirent, Dirent.split, direntAt_ino, direntAt_len, length_name_direntAt]
  by_cases hlive : ino b de ≠ 0
  · rw [if_pos hlive] at hroom
    have hnamed := hfits.named hlive
    have hkept := minimal_le_pmfsDirRecLen hnamed
    have hkeptmod := pmfsDirRecLen_mod (nameLen b de)
    have hkeptname := add_le_pmfsDirRecLen (nameLen b de)
    have hfitskept : (direntAt b de).name.length = nameLen b de := length_name_direntAt
    rw [hfitskept] at hkept
    rw [if_pos hlive, if_pos hlive]
    generalize hn : pmfsDirRecLen (nameLen b de) = nlen at *
    rw [pmfsDirRecLen_one] at hmin hkept
    -- the length of the new entry is set first, out of the reach of the old one
    have hold : direntAt (setDeLen b (de + nlen) (deLen b de - nlen)) de = direntAt b de :=
      direntAt_congr fun x _ hlt => setDeLen_of_outside (.inl (by omega))
    have hnew : deLen (setDeLen (setDeLen b (de + nlen) (deLen b de - nlen)) de nlen)
        (de + nlen) = deLen b de - nlen := by
      rw [deLen, readLE_congr (m := setDeLen b (de + nlen) (deLen b de - nlen))
        fun x hx _ => setDeLen_of_outside (.inr (by omega))]
      exact readLE_writeLE (by omega)
    have hhead : direntAt (setDeLen (setDeLen b (de + nlen) (deLen b de - nlen)) de nlen) de =
        { direntAt b de with len := nlen } := by
      rw [direntAt_setDeLen (by omega), hold]
    have hsame : nameLen (setDeLen (setDeLen b (de + nlen) (deLen b de - nlen)) de nlen) de =
        nameLen b de := by
      rw [← length_name_direntAt, hhead, ← hfitskept]
    refine ⟨?_, ⟨hkeptmod, hkept, ?_, hfits.named⟩, ?_, ⟨?_, ?_, ?_, fun _ => hne⟩, ?_⟩
    · refine (direntAt_congr fun x _ hlt => ?_).trans hhead
      exact writeDirent_of_outside (.inl (by omega))
    · rw [hfitskept, hn]
    · rw [direntAt_writeDirent hinode hname, hnew]
    · dsimp only
      omega
    · rw [pmfsDirRecLen_one]
      dsimp only
      omega
    · dsimp only
      omega
    · change de + nlen + (deLen b de - nlen) = de + deLen b de
      omega
  · rw [if_neg hlive, Nat.zero_add] at hroom
    rw [if_neg hlive, if_neg hlive]
    refine ⟨?_, ⟨haligned, hfits.minimal, hroom, fun _ => hne⟩, rfl⟩
    rw [direntAt_writeDirent hinode hname]

theorem insertDirent_of_outside {x : ℕ} (hfits : (direntAt b de).Fits)
    (hroom : (direntAt b de).HasRoom (pmfsDirRecLen name.length))
    (hx : x < de ∨ de + deLen b de ≤ x) : insertDirent b de name inode x = b x := by
  have hname := add_le_pmfsDirRecLen name.length
  have hmin := hfits.minimal
  rw [Dirent.HasRoom, Dirent.used, direntAt_ino, direntAt_len, length_name_direntAt] at hroom
  rw [pmfsDirRecLen_one, direntAt_len] at hmin
  rw [insertDirent]
  split at hroom
  · rw [if_pos ‹_›, writeDirent_of_outside (by omega), setDeLen_of_outside (by omega),
      setDeLen_of_outside (by omega)]
  · rw [if_neg ‹_›, writeDirent_of_outside (by omega)]

theorem Tiles.insertDirent (h : Tiles b o (pre ++ e :: post) blockSize)
    (hroom : e.HasRoom (pmfsDirRecLen name.length)) (hne : name ≠ [])
    (hname : name.length ≤ pmfsNameLen) (hinode : inode < 2 ^ 64) :
    Tiles (insertDirent b (o + span pre) name inode) o (pre ++ e.split name inode ++ post)
      blockSize := by
  have hcut := h
  rw [tiles_append] at hcut
  obtain ⟨-, rfl, hfits, htail⟩ := hcut
  have hstop := htail.stop_eq
  unfold blockSize at hstop
  rw [direntAt_len] at hstop
  rw [← List.singleton_append, ← List.append_assoc] at h
  refine h.replace ?_ ?_
  · intro x hx
    exact insertDirent_of_outside hfits hroom (by simpa using hx)
  · rw [span_cons, span_nil, Nat.add_zero]
    exact tiles_split hfits hroom hne hname hinode (by omega)

/-- The entry before a removed one grows over it. -/
theorem Tiles.unlinkDirent_some (h : Tiles b o (pre ++ p :: e :: post) blockSize) :
    Tiles (unlinkDirent b (o + span pre + p.len) (some (o + span pre))) o
      (pre ++ { p with len := p.len + e.len } :: post) blockSize := by
  have hcut := h
  rw [tiles_append] at hcut
  obtain ⟨-, hp, hfits, he, hefits, htail⟩ := hcut
  have hstop := htail.stop_eq
  have hmin := hfits.minimal
  have haligned := hfits.aligned
  have healigned := hefits.aligned
  unfold blockSize at hstop
  rw [pmfsDirRecLen_one] at hmin
  have hplen : deLen b (o + span pre) = p.len := congrArg Dirent.len hp
  have helen : deLen b (o + span pre + p.len) = e.len := congrArg Dirent.len he
  have hmid : Tiles b o (pre ++ [p, e] ++ post) blockSize := by simpa using h
  rw [← List.singleton_append, ← List.append_assoc]
  refine hmid.replace ?_ ?_
  · intro x hx
    simp only [span_cons, span_nil] at hx
    exact setDeLen_of_outside (by omega)
  · simp only [span_cons, span_nil]
    refine ⟨?_, ⟨?_, ?_, ?_, hfits.named⟩, by simp only [Tiles]; omega⟩
    · rw [unlinkDirent, hplen, helen, direntAt_setDeLen (by omega), hp]
    · dsimp only
      omega
    · rw [pmfsDirRecLen_one]
      dsimp only
      omega
    · exact hfits.room.trans (Nat.le_add_right _ _)

/-- The first entry of a block is only marked unused. -/
theorem Tiles.unlinkDirent_none (h : Tiles b o (e :: post) blockSize) :
    Tiles (unlinkDirent b o none) o ({ e with ino := 0 } :: post) blockSize := by
  obtain ⟨rfl, hfits, htail⟩ := h
  have hmin := hfits.minimal
  rw [pmfsDirRecLen_one, direntAt_len] at hmin
  refine ⟨direntAt_setIno (by omega), ⟨hfits.aligned, hfits.minimal, hfits.room, ?_⟩, ?_⟩
  · exact fun h => absurd rfl h
  · exact htail.congr fun x hx _ => setIno_of_outside (.inr (by dsimp only [direntAt] at hx; omega))

/-- The inode number of an entry is changed in place. -/
theorem Tiles.setIno (h : Tiles b o (pre ++ e :: post) stop) (hinode : inode < 2 ^ 64)
    (hlive : e.ino ≠ 0) :
    Tiles (setIno b (o + span pre) inode) o (pre ++ { e with ino := inode } :: post) stop := by
  have hcut := h
  rw [tiles_append] at hcut
  obtain ⟨-, he, hfits, htail⟩ := hcut
  have hmin := hfits.minimal
  rw [pmfsDirRecLen_one] at hmin
  rw [← List.singleton_append, ← List.append_assoc] at h ⊢
  refine h.replace ?_ ?_
  · intro x hx
    rw [span_cons, span_nil] at hx
    exact setIno_of_outside (by omega)
  · rw [span_cons, span_nil]
    refine ⟨?_, ⟨hfits.aligned, hfits.minimal, hfits.room, fun _ => hfits.named hlive⟩, rfl⟩
    rw [direntAt_setIno hinode, he]

/-! ## The first block -/

theorem direntAt_strcpyName (h : nameLen b de = name.length) :
    direntAt (strcpyName b de name) de = ⟨ino b de, deLen b de, name⟩ := by
  rw [direntAt, strcpyName, ino_setName, deLen_setName, nameLen_setName, h, setName,
    readBytes_writeBytes_append]

theorem strcpyName_of_outside {x : ℕ} (h : x < de + 12 ∨ de + 12 + name.length < x) :
    strcpyName b de name x = b x :=
  setName_of_outside (by rw [List.length_append, List.length_singleton]; omega)

/-- The block after its first entry has been written. -/
def mkdirDot (iIno : ℕ) (b : Block) : Block :=
  strcpyName (setDeLen (setNameLen (setIno b 0 iIno) 0 1) 0 (pmfsDirRecLen 1)) 0 dot

theorem direntAt_mkdirDot {iIno : ℕ} (hi : iIno < 2 ^ 64) :
    direntAt (mkdirDot iIno b) 0 = ⟨iIno, pmfsDirRecLen 1, dot⟩ := by
  rw [mkdirDot, direntAt_strcpyName, deLen_setDeLen (by decide)]
  · simp [ino_setIno hi]
  · rw [nameLen_setDeLen, nameLen_setNameLen (by decide)]
    rfl

theorem mkdirBlock_eq {iIno parent : ℕ} :
    mkdirBlock iIno parent b =
      strcpyName (setNameLen (setDeLen (setIno (mkdirDot iIno b) (pmfsDirRecLen 1) parent)
        (pmfsDirRecLen 1) (blockSize - pmfsDirRecLen 1)) (pmfsDirRecLen 1) 2) (pmfsDirRecLen 1)
        dotdot := by
  have hlen : deLen (mkdirDot iIno b) 0 = pmfsDirRecLen 1 := by
    rw [mkdirDot, strcpyName, deLen_setName, deLen_setDeLen (by decide)]
  have hnext : pmfsNextEntry (mkdirDot iIno b) 0 = pmfsDirRecLen 1 := by
    rw [pmfsNextEntry, hlen, Nat.zero_add]
  rw [mkdirBlock, nameLen_setNameLen (by decide)]
  rw [mkdirDot] at hnext ⊢
  simp only [hnext]

/-- `pmfs_mkdir` fills the first block with `.` and `..`. -/
theorem tiles_mkdirBlock {iIno parent : ℕ} (hi : iIno < 2 ^ 64) (hp : parent < 2 ^ 64) :
    Tiles (mkdirBlock iIno parent b) 0
      [⟨iIno, pmfsDirRecLen 1, dot⟩, ⟨parent, blockSize - pmfsDirRecLen 1, dotdot⟩] blockSize := by
  have hdot := direntAt_mkdirDot (b := b) hi
  have hlen : nameLen (mkdirDot iIno b) 0 = 1 := by
    rw [← length_name_direntAt, hdot]
    rfl
  rw [mkdirBlock_eq]
  refine ⟨?_, .of_name (by decide) (by decide) (by decide), ?_,
    .of_name (by decide) (by decide) (by decide), rfl⟩
  · rw [← hdot]
    -- the second entry is written behind the first
    refine direntAt_congr fun x _ hlt => ?_
    rw [pmfsDirRecLen_one, strcpyName_of_outside (by omega), setNameLen_of_outside (by omega),
      setDeLen_of_outside (by omega), setIno_of_outside (by omega)]
  · rw [Nat.zero_add, direntAt_strcpyName]
    · simp [ino_setIno hp, deLen_setDeLen (show blockSize - pmfsDirRecLen 1 < 2 ^ 16 by decide)]
    · rw [nameLen_setNameLen (by decide)]
      rfl

end Wpmfs.Dir
