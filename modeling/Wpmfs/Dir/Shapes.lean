import Wpmfs.Dir.Refinement

/-!
# What an abort leaves of a block

Additions write the header and the name of a new entry without logging them. Beside a block as it
is, there is the block as an abort would leave it: it is tiled by entries of the same shapes as at
the start, since all that was written to it lies in bytes that no entry needed at the start
(`Unneeded`). That the room an addition finds consists of such bytes, unless a removal made it, is
`Grown`.
-/

namespace Wpmfs.Dir

open Bytes

/-- An entry without what an unused one may change. -/
def Dirent.shape (e : Dirent) : Dirent := if e.ino = 0 then { e with name := [] } else e

/-- The header and the name, if the entry is live. -/
def Dirent.core (e : Dirent) : ℕ := if e.ino = 0 then 12 else 12 + e.name.length

/-- Where the room of an entry starts that an addition may take. -/
def Dirent.keep (e : Dirent) : ℕ := if e.ino = 0 then 12 else pmfsDirRecLen e.name.length

/-- No entry of the row from `o` on needs the byte. -/
def Unneeded : ℕ → List Dirent → ℕ → Prop
  | _, [], _ => True
  | o, e :: es, x => (x < o ∨ o + e.core ≤ x) ∧ Unneeded (o + e.len) es x

/-- Room is made of bytes that were not needed at the start, or that a removal set free. An unused
entry was one at the start, or begins with such bytes, or took them in. -/
def Grown (es₀ : List Dirent) (freed : Set ℕ) : ℕ → List Dirent → Prop
  | _, [] => True
  | o, e :: es =>
    (∀ x, o + e.keep ≤ x → x < o + e.len → x ∈ freed ∨ Unneeded 0 es₀ x) ∧
    (e.ino = 0 → o ∈ freed ∨ ∃ pre f post, es₀ = pre ++ f :: post ∧ span pre = o ∧ f.ino = 0 ∧
      (f.len = e.len ∨ o + f.len ∈ freed)) ∧
    Grown es₀ freed (o + e.len) es

variable {b b' u u' : Block} {o x y de stop inode : ℕ} {name : Name} {e f p : Dirent}
  {es es' es₀ pre post : List Dirent} {freed freed' : Set ℕ}

@[simp] theorem Dirent.ino_shape (e : Dirent) : e.shape.ino = e.ino := by
  unfold Dirent.shape
  split <;> rfl

@[simp] theorem Dirent.len_shape (e : Dirent) : e.shape.len = e.len := by
  unfold Dirent.shape
  split <;> rfl

theorem Dirent.binding_shape (e : Dirent) : e.shape.binding = e.binding := by
  unfold Dirent.shape Dirent.binding
  grind

theorem Dirent.core_shape (e : Dirent) : e.shape.core = e.core := by
  unfold Dirent.shape Dirent.core
  grind

theorem bindings_map_shape (es : List Dirent) : bindings (es.map Dirent.shape) = bindings es := by
  rw [bindings, List.flatMap_map, bindings]
  exact congrArg (es.flatMap ·) (funext Dirent.binding_shape)

theorem span_map_shape (es : List Dirent) : span (es.map Dirent.shape) = span es := by
  rw [span, span, List.map_map]
  exact congrArg List.sum (List.map_congr_left fun e _ => e.len_shape)

theorem Dirent.Fits.core_le (h : e.Fits) : e.core ≤ e.keep ∧ e.keep ≤ e.len := by
  have hmin := h.minimal
  have hroom := h.room
  have hname := add_le_pmfsDirRecLen e.name.length
  rw [pmfsDirRecLen_one] at hmin
  unfold Dirent.core Dirent.keep
  grind

/-! ## Bytes that are not needed -/

theorem unneeded_append :
    Unneeded o (pre ++ post) x ↔ Unneeded o pre x ∧ Unneeded (o + span pre) post x := by
  induction pre generalizing o with
  | nil => simp [Unneeded]
  | cons e pre ih => simp [Unneeded, ih, Nat.add_assoc, and_assoc]

theorem unneeded_map_shape : Unneeded o (es.map Dirent.shape) x ↔ Unneeded o es x := by
  induction es generalizing o with
  | nil => rfl
  | cons e es ih => simp [Unneeded, ih, Dirent.core_shape]

theorem unneeded_of_lt (h : x < o) : Unneeded o es x := by
  induction es generalizing o with
  | nil => trivial
  | cons e es ih => exact ⟨.inl h, ih (by omega)⟩

theorem unneeded_of_le (hfits : ∀ e ∈ es, e.Fits) (h : o + span es ≤ x) : Unneeded o es x := by
  induction es generalizing o with
  | nil => trivial
  | cons e es ih =>
    have hcore := (hfits e (by simp)).core_le
    rw [span_cons] at h
    exact ⟨.inr (by omega), ih (fun e he => hfits e (by simp [he])) (by omega)⟩

/-- A block keeps its entries, up to the names of unused ones, when only bytes change that they do
not need. -/
theorem Tiles.reshape (h : Tiles b o es stop) (hb : ∀ x, b' x = b x ∨ Unneeded o es x) :
    ∃ es', Tiles b' o es' stop ∧ es'.map Dirent.shape = es.map Dirent.shape := by
  induction es generalizing o with
  | nil => exact ⟨[], h, rfl⟩
  | cons e es ih =>
    obtain ⟨rfl, hfits, htail⟩ := h
    obtain ⟨es', htiles, hshape⟩ := ih htail fun x => (hb x).imp_right And.right
    have hsame : ∀ x, o ≤ x → x < o + (direntAt b o).core → b' x = b x := fun x hle hlt =>
      (hb x).resolve_right fun hout => by have := hout.1; omega
    have hcore : 12 ≤ (direntAt b o).core := by
      unfold Dirent.core
      split <;> omega
    have hino : ino b' o = ino b o := readLE_congr fun x hx hlt => hsame x hx (by omega)
    have hlen : deLen b' o = deLen b o :=
      readLE_congr fun x hx hlt => hsame x (by omega) (by omega)
    have hname : nameLen b' o = nameLen b o :=
      readLE_congr fun x hx hlt => hsame x (by omega) (by omega)
    have hent : (direntAt b' o).shape = (direntAt b o).shape := by
      by_cases hlive : ino b o = 0
      · simp [Dirent.shape, direntAt, hino, hlen, hlive]
      · refine congrArg _ (direntAt_congr fun x hx hlt => hsame x hx ?_)
        rw [Dirent.core, direntAt_ino, if_neg hlive, length_name_direntAt]
        omega
    have hfits' : (direntAt b' o).Fits := by
      refine ⟨?_, ?_, ?_, fun hne => ?_⟩
      · rw [direntAt_len, hlen]
        exact hfits.aligned
      · rw [direntAt_len, hlen]
        exact hfits.minimal
      · have := hfits.room
        rw [length_name_direntAt, direntAt_len] at this ⊢
        rw [hname, hlen]
        exact this
      · have := hfits.named (by rwa [direntAt_ino, ← hino])
        rw [← List.length_pos_iff, length_name_direntAt] at this ⊢
        rwa [hname]
    refine ⟨direntAt b' o :: es', ⟨rfl, hfits', ?_⟩, by simp [hent, hshape]⟩
    rwa [direntAt_len, hlen]

/-- The name length of an unused entry changes. -/
theorem Tiles.rename (h : Tiles b o (pre ++ e :: post) stop) (he : e.ino = 0)
    (hb : ∀ x, x ≠ o + span pre + 10 → b' x = b x)
    (hroom : pmfsDirRecLen (nameLen b' (o + span pre)) ≤ e.len) :
    ∃ es', Tiles b' o es' stop ∧ es'.map Dirent.shape = (pre ++ e :: post).map Dirent.shape := by
  obtain ⟨hpre, rfl, hfits, htail⟩ := tiles_append.mp h
  have hmin := hfits.minimal
  rw [pmfsDirRecLen_one] at hmin
  have hino : ino b' (o + span pre) = ino b (o + span pre) :=
    readLE_congr fun x hx hlt => hb x (by omega)
  have hlen : deLen b' (o + span pre) = deLen b (o + span pre) :=
    readLE_congr fun x hx hlt => hb x (by omega)
  rw [direntAt_ino] at he
  refine ⟨pre ++ direntAt b' (o + span pre) :: post,
    tiles_append.mpr ⟨?_, rfl, ⟨?_, ?_, ?_, ?_⟩, ?_⟩, ?_⟩
  · exact hpre.congr fun x _ hx => hb x (by omega)
  · rw [direntAt_len, hlen]
    exact hfits.aligned
  · rw [direntAt_len, hlen]
    exact hfits.minimal
  · rwa [length_name_direntAt, direntAt_len, hlen]
  · exact fun hne => absurd (hino.trans he) hne
  · rw [direntAt_len, hlen]
    exact htail.congr fun x hx _ => hb x (by rw [direntAt_len] at hx hmin; omega)
  · simp [Dirent.shape, direntAt, hino, hlen, he]

/-! ## Room -/

theorem grown_append :
    Grown es₀ freed o (pre ++ post) ↔ Grown es₀ freed o pre ∧ Grown es₀ freed (o + span pre) post := by
  induction pre generalizing o with
  | nil => simp [Grown]
  | cons e pre ih => simp [Grown, ih, Nat.add_assoc, and_assoc]

theorem Grown.mono (h : Grown es₀ freed o es) (hfreed : freed ⊆ freed') : Grown es₀ freed' o es := by
  induction es generalizing o with
  | nil => trivial
  | cons e es ih =>
    refine ⟨fun x hle hlt => (h.1 x hle hlt).imp_left (@hfreed x), fun he => ?_, ih h.2.2⟩
    rcases h.2.1 he with hin | ⟨pre, f, post, hes, ho, hf, hlen⟩
    · exact .inl (hfreed hin)
    · exact .inr ⟨pre, f, post, hes, ho, hf, hlen.imp_right (@hfreed _)⟩

/-- At the start all room is made of bytes that are not needed. -/
theorem grown_start (hfits : ∀ e ∈ es₀, e.Fits) (h : es₀ = pre ++ es) :
    Grown es₀ freed (span pre) es := by
  induction es generalizing pre with
  | nil => trivial
  | cons e es ih =>
    refine ⟨fun x hle hlt => .inr ?_, fun he => .inr ⟨pre, e, es, h, rfl, he, .inl rfl⟩, ?_⟩
    · have hcore := (hfits e (by simp [h])).core_le
      rw [h, unneeded_append]
      refine ⟨unneeded_of_le (fun f hf => hfits f (by simp [h, hf])) (by omega),
        .inr (by omega), unneeded_of_lt (by omega)⟩
    · have := @ih (pre ++ [e]) (by simp [h])
      rwa [span_append, span_cons, span_nil] at this

theorem Grown.insert (h : Grown es₀ freed 0 (pre ++ e :: post)) (inode : ℕ)
    (hroom : e.HasRoom (pmfsDirRecLen name.length)) (hinode : inode ≠ 0) :
    Grown es₀ freed 0 (pre ++ e.split name inode ++ post) := by
  obtain ⟨hpre, hslack, -, hpost⟩ := grown_append.mp h
  rw [Dirent.HasRoom, Dirent.used] at hroom
  rw [Dirent.keep] at hslack
  have hname := add_le_pmfsDirRecLen name.length
  rw [List.append_assoc, grown_append]
  refine ⟨hpre, ?_⟩
  rw [Dirent.split]
  by_cases hlive : e.ino = 0
  · rw [if_pos hlive] at hslack
    rw [if_neg (by simpa using hlive)] at hroom ⊢
    refine ⟨fun x hle hlt => hslack x ?_ hlt, fun hzero => absurd hzero hinode, hpost⟩
    rw [Dirent.keep, if_neg hinode] at hle
    dsimp only at hle
    omega
  · rw [if_neg hlive] at hslack
    rw [if_pos hlive] at hroom ⊢
    have hend : 0 + span pre + pmfsDirRecLen e.name.length +
        (e.len - pmfsDirRecLen e.name.length) = 0 + span pre + e.len := by omega
    refine ⟨fun x hle hlt => ?_, fun hzero => absurd hzero hlive, fun x hle hlt => hslack x ?_ ?_,
      fun hzero => absurd hzero hinode, by rwa [hend]⟩
    · rw [Dirent.keep, if_neg hlive] at hle
      dsimp only at hle hlt
      omega
    · dsimp only at hle
      omega
    · dsimp only at hlt
      omega

/-- The bytes of an entry that is taken out. -/
def bytesOf (o : ℕ) (name : Name) : Set ℕ := {x | o ≤ x ∧ x < o + pmfsDirRecLen name.length}

theorem Grown.merge (h : Grown es₀ freed 0 (pre ++ p :: e :: post)) (hlive : e.ino ≠ 0) :
    Grown es₀ (freed ∪ bytesOf (span pre + p.len) e.name) 0
      (pre ++ { p with len := p.len + e.len } :: post) := by
  have hsub : freed ⊆ freed ∪ bytesOf (span pre + p.len) e.name := fun _ => .inl
  have hname := add_le_pmfsDirRecLen e.name.length
  obtain ⟨hpre, hp, hunused, he, -, hpost⟩ := grown_append.mp (h.mono hsub)
  rw [Nat.zero_add] at hp hunused he hpost
  rw [grown_append, Nat.zero_add]
  refine ⟨hpre, fun x hle hlt => ?_, fun hzero => ?_, by rwa [← Nat.add_assoc]⟩
  · dsimp only at hlt
    by_cases hin : x < span pre + p.len
    · exact hp x hle hin
    · by_cases hkeep : x < span pre + p.len + pmfsDirRecLen e.name.length
      · exact .inl (.inr ⟨by omega, hkeep⟩)
      · exact he x (by rw [Dirent.keep, if_neg hlive]; omega) (by omega)
  · rcases hunused hzero with hin | ⟨pre₀, f, post₀, hes, ho, hf, hlen⟩
    · exact .inl hin
    · refine .inr ⟨pre₀, f, post₀, hes, ho, hf, .inr ?_⟩
      -- where the entry ended, there is now a byte of the one that was taken out
      rcases hlen with hlen | hin
      · exact .inr ⟨by omega, by omega⟩
      · exact hin

theorem Grown.head (h : Grown es₀ freed 0 (e :: post)) (hlive : e.ino ≠ 0) :
    Grown es₀ (freed ∪ bytesOf 0 e.name) 0 ({ e with ino := 0 } :: post) := by
  have hsub : freed ⊆ freed ∪ bytesOf 0 e.name := fun _ => .inl
  have hname := add_le_pmfsDirRecLen e.name.length
  obtain ⟨he, -, hpost⟩ := h.mono hsub
  refine ⟨fun x hle hlt => ?_, fun _ => .inl (.inr ⟨le_rfl, by omega⟩), hpost⟩
  by_cases hkeep : x < pmfsDirRecLen e.name.length
  · exact .inl (.inr ⟨Nat.zero_le _, by omega⟩)
  · exact he x (by rw [Dirent.keep, if_neg hlive]; omega) hlt

/-! ## A block and what an abort leaves of it -/

/-- The block `b` and the block `u` that an abort would leave, when it held `es₀` at the start. -/
structure Kept (es₀ : List Dirent) (freed : Set ℕ) (u b : Block) : Prop where
  left : ∃ es, Tiles u 0 es blockSize ∧ es.map Dirent.shape = es₀.map Dirent.shape
  now : ∃ es, Tiles b 0 es blockSize ∧ Grown es₀ freed 0 es

/-- Where an addition that chose the entry `de` writes the new entry. -/
def newEntry (b : Block) (de : ℕ) : ℕ :=
  if ino b de ≠ 0 then de + pmfsDirRecLen (nameLen b de) else de

theorem Tiles.kept (h : Tiles b 0 es blockSize) : Kept es ∅ b b :=
  have hstart : Grown es ∅ (span []) es := grown_start (fun _ he => (h.of_mem he).1) rfl
  ⟨⟨es, h, rfl⟩, es, h, hstart⟩

theorem Kept.tiles (h : Kept es₀ freed u b) :
    ∃ es, Tiles u 0 es blockSize ∧ bindings es = bindings es₀ := by
  obtain ⟨es, htiles, hshape⟩ := h.left
  exact ⟨es, htiles, by rw [← bindings_map_shape, hshape, bindings_map_shape]⟩

/-- The entry of what an abort leaves that stands where an unused one stood at the start. -/
theorem exists_of_map_shape (h : es.map Dirent.shape = (pre ++ f :: post).map Dirent.shape) :
    ∃ pre' f' post', es = pre' ++ f' :: post' ∧ span pre' = span pre ∧ f'.ino = f.ino ∧
      f'.len = f.len := by
  rw [List.map_append, List.map_cons, List.map_eq_append_iff] at h
  obtain ⟨pre', rest, rfl, hpre, hrest⟩ := h
  obtain ⟨f', post', rfl, hf, -⟩ := List.map_eq_cons_iff.mp hrest
  refine ⟨pre', f', post', rfl, ?_, ?_, ?_⟩
  · rw [← span_map_shape, hpre, span_map_shape]
  · rw [← f'.ino_shape, hf, f.ino_shape]
  · rw [← f'.len_shape, hf, f.len_shape]

theorem unneeded_congr (h : es.map Dirent.shape = es₀.map Dirent.shape)
    (hx : Unneeded 0 es₀ x) : Unneeded 0 es x := by
  rw [← unneeded_map_shape, h, unneeded_map_shape]
  exact hx

/-- The entry with room that the search finds. -/
theorem Tiles.room_cases (h : Tiles b 0 es blockSize)
    (hfind : findRoom b (pmfsDirRecLen name.length) 0 = some (some de)) :
    ∃ pre e post, es = pre ++ e :: post ∧ e.HasRoom (pmfsDirRecLen name.length) ∧ de = span pre := by
  have hlen := add_le_pmfsDirRecLen name.length
  obtain ⟨pre, e, post, rfl, hroom, hfound⟩ | hnone :=
    findRoom_spec h (show 0 < pmfsDirRecLen name.length by omega)
  · rw [hfind, Nat.zero_add] at hfound
    exact ⟨pre, e, post, rfl, hroom, by simpa using hfound⟩
  · rw [hnone] at hfind
    cases hfind

theorem Tiles.exists_insertDirent (h : Tiles b 0 es blockSize) (hne : name ≠ [])
    (hname : name.length ≤ pmfsNameLen) (hinode : inode < 2 ^ 64)
    (hfind : findRoom b (pmfsDirRecLen name.length) 0 = some (some de)) :
    ∃ es', Tiles (Dir.insertDirent b de name inode) 0 es' blockSize := by
  obtain ⟨pre, e, post, rfl, hroom, rfl⟩ := h.room_cases hfind
  have hins := h.insertDirent hroom hne hname hinode
  rw [Nat.zero_add] at hins
  exact ⟨_, hins⟩

/-- An addition does not write over bytes that a removal set free; of what it writes an abort may
leave the new entry, and of an unused entry that it takes the inode number and the length are
restored. -/
theorem Kept.insert (h : Kept es₀ freed u b) (hne : name ≠ []) (hname : name.length ≤ pmfsNameLen)
    (hpos : inode ≠ 0) (hinode : inode < 2 ^ 64)
    (hfind : findRoom b (pmfsDirRecLen name.length) 0 = some (some de))
    (hfreed : ∀ x, newEntry b de ≤ x → x < newEntry b de + 12 + name.length → x ∉ freed)
    (hu : ∀ x, u' x = u x ∨ newEntry b de ≤ x ∧ x < newEntry b de + 12 + name.length ∧
      u' x = insertDirent b de name inode x)
    (hlog : ino b de = 0 → ∀ x, de ≤ x → x < de + 12 → x ≠ de + 10 → u' x = u x) :
    Kept es₀ freed u' (insertDirent b de name inode) := by
  obtain ⟨⟨eu, htiles, hshape⟩, es, hb, hgrown⟩ := h
  have hlen := add_le_pmfsDirRecLen name.length
  obtain ⟨pre, e, post, rfl, hroom, rfl⟩ := hb.room_cases hfind
  have hins := hb.insertDirent hroom hne hname hinode
  rw [Nat.zero_add] at hins
  refine ⟨?_, _, hins, hgrown.insert inode hroom hpos⟩
  obtain ⟨-, hslack, hunused, -⟩ := grown_append.mp hgrown
  obtain ⟨-, hat, hfits, -⟩ := tiles_append.mp hb
  rw [Nat.zero_add] at hslack hunused hat
  have hino : ino b (span pre) = e.ino := by rw [← direntAt_ino, hat]
  have hnlen : nameLen b (span pre) = e.name.length := by rw [← length_name_direntAt, hat]
  rw [Dirent.HasRoom, Dirent.used] at hroom
  rw [Dirent.keep] at hslack
  by_cases hlive : e.ino = 0
  · -- an unused entry is taken
    rw [if_pos hlive] at hslack
    rw [if_neg (by simpa using hlive)] at hroom
    rw [newEntry, hino, if_neg (by simpa using hlive)] at hfreed hu
    have hrest : ∀ x, Function.update u' (span pre + 10) (u (span pre + 10)) x = u x ∨
        Unneeded 0 eu x := by
      intro x
      by_cases hx : x = span pre + 10
      · subst hx
        exact .inl (Function.update_self ..)
      · rw [Function.update_of_ne hx]
        rcases hu x with hsame | ⟨hle, hlt, -⟩
        · exact .inl hsame
        · by_cases hhead : x < span pre + 12
          · exact .inl (hlog (hino.trans hlive) x hle hhead hx)
          · have hfree := (hslack x (by omega) (by omega)).resolve_left (hfreed x hle hlt)
            exact .inr (unneeded_congr hshape hfree)
    obtain ⟨eu₁, htiles₁, hshape₁⟩ := htiles.reshape hrest
    rw [hshape] at hshape₁
    by_cases hsame : u' (span pre + 10) = u (span pre + 10)
    · rw [← hsame, Function.update_eq_self] at htiles₁
      exact ⟨eu₁, htiles₁, hshape₁⟩
    · -- the name length is the new one, and the entry has room for the name
      obtain ⟨-, -, hbyte⟩ := (hu _).resolve_left hsame
      obtain ⟨pre₀, f, post₀, rfl, hspan, hf, hflen⟩ :=
        (hunused hlive).resolve_left (hfreed _ le_rfl (by omega))
      obtain ⟨pre₁, f₁, post₁, rfl, hspan₁, hf₁, hflen₁⟩ := exists_of_map_shape hshape₁
      have hat₁ : span pre₁ = span pre := hspan₁.trans hspan
      have hnamelen : nameLen u' (span pre) = name.length := by
        have hnew : nameLen (insertDirent b (span pre) name inode) (span pre) = name.length := by
          rw [insertDirent, if_neg (by rw [hino]; simpa using hlive), writeDirent, nameLen_setName,
            nameLen_setNameLen hname]
        rw [← hnew]
        refine readLE_congr fun x hx hlt => ?_
        obtain rfl : x = span pre + 10 := by omega
        exact hbyte
      have hmod := ((htiles₁.of_mem (show f₁ ∈ pre₁ ++ f₁ :: post₁ by simp)).1).aligned
      have hreclen := pmfsDirRecLen_mod name.length
      have hfit : pmfsDirRecLen name.length ≤ f.len := by
        rcases hflen with hflen | hin
        · omega
        · by_contra hlong
          refine hfreed _ (Nat.le_add_right ..) ?_ hin
          have hround : pmfsDirRecLen name.length < name.length + 16 := by
            unfold pmfsDirRecLen
            omega
          omega
      have hother : ∀ x, x ≠ 0 + span pre₁ + 10 →
          u' x = Function.update u' (span pre + 10) (u (span pre + 10)) x := by
        intro x hx
        rw [Nat.zero_add, hat₁] at hx
        exact (Function.update_of_ne hx ..).symm
      have hroom' : pmfsDirRecLen (nameLen u' (0 + span pre₁)) ≤ f₁.len := by
        rw [Nat.zero_add, hat₁, hnamelen]
        omega
      obtain ⟨eu', htiles', hshape'⟩ := htiles₁.rename (hf₁.trans hf) hother hroom'
      exact ⟨eu', htiles', hshape'.trans hshape₁⟩
  · rw [if_neg hlive] at hslack
    rw [if_pos hlive] at hroom
    rw [newEntry, hino, if_pos hlive, hnlen] at hfreed hu
    have hrest : ∀ x, u' x = u x ∨ Unneeded 0 eu x := by
      intro x
      rcases hu x with hsame | ⟨hle, hlt, -⟩
      · exact .inl hsame
      · have hfree := (hslack x (by omega) (by omega)).resolve_left (hfreed x hle hlt)
        exact .inr (unneeded_congr hshape hfree)
    obtain ⟨eu', htiles', hshape'⟩ := htiles.reshape hrest
    exact ⟨eu', htiles', hshape'.trans hshape⟩

theorem Kept.mono (h : Kept es₀ freed u b) (hfreed : freed ⊆ freed') : Kept es₀ freed' u b := by
  obtain ⟨hleft, es, htiles, hgrown⟩ := h
  exact ⟨hleft, es, htiles, hgrown.mono hfreed⟩

/-- Where the search finds a name: behind another entry, or at the start of the block. -/
theorem Tiles.found_cases {res : ℕ} {prev : Option ℕ} (h : Tiles b 0 es blockSize)
    (hfind : pmfsSearchDirblock b name = .found res prev) :
    (∃ pre p e post, es = pre ++ p :: e :: post ∧ e.ino ≠ 0 ∧ e.name = name ∧
      prev = some (span pre) ∧ res = span pre + p.len) ∨
    ∃ e post, es = e :: post ∧ e.ino ≠ 0 ∧ e.name = name ∧ prev = none ∧ res = 0 := by
  rw [pmfsSearchDirblock] at hfind
  rcases searchFrom_spec name none h with
    ⟨pre, e, post, rfl, hlive, hname, hfound⟩ | ⟨-, hfound⟩
  · rw [hfind] at hfound
    rcases pre.eq_nil_or_concat with rfl | ⟨pre, p, rfl⟩
    · cases hfound
      exact .inr ⟨e, post, rfl, hlive, hname, rfl, rfl⟩
    · rw [List.concat_eq_append, prevOf_concat] at hfound
      cases hfound
      exact .inl ⟨pre, p, e, post, by simp, hlive, hname, by simp, by simp⟩
  · rw [hfind] at hfound
    cases hfound

theorem insertDirent_of_notMem (hnew : y < newEntry b de ∨ newEntry b de + 12 + name.length ≤ y)
    (hlen : ino b de ≠ 0 → y < de + 8 ∨ de + 10 ≤ y) : insertDirent b de name inode y = b y := by
  rw [newEntry] at hnew
  rw [insertDirent]
  split at hnew
  · rename_i hlive
    have := hlen hlive
    rw [if_pos hlive, writeDirent_of_outside (by omega), setDeLen_of_outside (by omega),
      setDeLen_of_outside (by omega)]
  · rename_i hlive
    rw [if_neg hlive, writeDirent_of_outside (by omega)]

/-- An unused entry that is taken keeps its length and its file type. -/
theorem insertDirent_of_unused (hino : ino b de = 0) (hle : de + 8 ≤ y) (hlt : y < de + 12)
    (hne : y ≠ de + 10) : insertDirent b de name inode y = b y := by
  rw [insertDirent, if_neg (by simpa using hino), writeDirent, setName_of_outside (by omega),
    setNameLen_of_outside (by omega), setIno_of_outside (by omega)]

/-- The entry with room lies in the block, and the new one in the entry. -/
theorem Tiles.room_le (inode : ℕ) (h : Tiles b 0 es blockSize)
    (hfind : findRoom b (pmfsDirRecLen name.length) 0 = some (some de)) :
    de + 16 ≤ blockSize ∧
    ∀ y, blockSize ≤ y → Dir.insertDirent b de name inode y = b y := by
  obtain ⟨pre, e, post, rfl, hroom, rfl⟩ := h.room_cases hfind
  obtain ⟨-, hat, hfits, htail⟩ := tiles_append.mp h
  rw [Nat.zero_add] at hat htail
  have hstop := htail.stop_eq
  have hmin := hfits.minimal
  rw [pmfsDirRecLen_one] at hmin
  have hlen : deLen b (span pre) = e.len := by rw [← direntAt_len, hat]
  refine ⟨by omega, fun y hy => Dir.insertDirent_of_outside ?_ ?_ (.inr (by omega))⟩
  · rwa [hat]
  · rwa [hat]

theorem Kept.congr (h : Kept es₀ freed u b) (hu : ∀ y < blockSize, u' y = u y)
    (hb : ∀ y < blockSize, b' y = b y) : Kept es₀ freed u' b' := by
  obtain ⟨⟨eu, hleft, hshape⟩, es, hnow, hgrown⟩ := h
  exact ⟨⟨eu, hleft.congr fun y _ hy => hu y hy, hshape⟩, es, hnow.congr fun y _ hy => hb y hy,
    hgrown⟩

theorem Tiles.exists_unlinkDirent {res : ℕ} {prev : Option ℕ} (h : Tiles b 0 es blockSize)
    (hfind : pmfsSearchDirblock b name = .found res prev) :
    ∃ es', Tiles (unlinkDirent b res prev) 0 es' blockSize := by
  rcases h.found_cases hfind with
    ⟨pre, p, e, post, rfl, -, -, rfl, rfl⟩ | ⟨e, post, rfl, -, -, rfl, rfl⟩
  · have h' := h.unlinkDirent_some
    rw [Nat.zero_add] at h'
    exact ⟨_, h'⟩
  · exact ⟨_, h.unlinkDirent_none⟩

/-- A removal changes nothing that an abort leaves. -/
theorem Kept.remove {res : ℕ} {prev : Option ℕ} (h : Kept es₀ freed u b)
    (hfind : pmfsSearchDirblock b name = .found res prev) :
    Kept es₀ (freed ∪ bytesOf res name) u (unlinkDirent b res prev) := by
  obtain ⟨hleft, es, htiles, hgrown⟩ := h
  rcases htiles.found_cases hfind with
    ⟨pre, p, e, post, rfl, hlive, rfl, rfl, rfl⟩ | ⟨e, post, rfl, hlive, rfl, rfl, rfl⟩
  · have htiles' := htiles.unlinkDirent_some
    rw [Nat.zero_add] at htiles'
    exact ⟨hleft, _, htiles', hgrown.merge hlive⟩
  · exact ⟨hleft, _, htiles.unlinkDirent_none, hgrown.head hlive⟩

/-- Every entry of a tiled block passes the check of the code. -/
theorem Tiles.accepted (h : Tiles b 0 (pre ++ e :: post) blockSize) :
    pmfsCheckDirEntry b (span pre) := by
  obtain ⟨-, hat, hfits, htail⟩ := tiles_append.mp h
  have hstop := htail.stop_eq
  rw [Nat.zero_add] at hat hstop
  rw [← hat] at hfits
  rw [pmfsCheckDirEntry, errorMsg_eq_none hfits]
  · rfl
  · rw [← direntAt_len, hat]
    omega

end Wpmfs.Dir
