import Wpmfs.Dir.Abort

/-!
# Aborting restores a directory

A transaction of any number of additions and removals on one directory, and then an abort. The
invariant of the run speaks of memory as it is and of memory as an abort would leave it: in the
second one the inode and the pages of pointers are those of the start, and each block of the start
is tiled by entries of the same shapes.
-/

namespace Wpmfs.Dir.Memory

open Bytes Pages Persist Journal Pages.Tx

/-! ## Runs -/

/-- A directory of `n` blocks: they are behind the tree of its inode one after another, each is
tiled by entries, and `own` says what each page is for. -/
structure Stored (own : Owner) (pidir n : ℕ) (m : Mem) (free : List ℕ) : Prop where
  room : Room pidir own free
  tree : Tree own m pidir
  pos : 0 < n
  size : iSize m pidir = n * blockSize
  blocks : ∀ k, pmfsFindDataBlock m pidir k ≠ 0 ↔ k < n
  tiled : ∀ k < n, ∃ es, Tiles (blockAt m (pmfsFindDataBlock m pidir k)) 0 es blockSize

/-- A transaction on a directory: `size` is that of the VFS inode, and `freed` are the bytes of the
entries that were taken out. -/
structure Run where
  tx : Pages.Tx
  size : ℕ
  freed : Set ℕ

inductive Change where
  | add (name : Name) (inode : ℕ)
  | remove (name : Name)

/-- A name is not too long, and an inode number is a number of 64 bits other than 0. -/
def Change.Legal : Change → Prop
  | .add name inode => name.length ≤ pmfsNameLen ∧ 0 < inode ∧ inode < 2 ^ 64
  | .remove _ => True

/-- The bytes of the entry that `pmfs_remove_entry` takes out. -/
def takenBytes (m : Mem) (pidir size : ℕ) (name : Name) : Set ℕ :=
  {x | ∃ p res prev, findEntry m pidir name (size / blockSize) 0 = some (p, res, prev) ∧
    p + res ≤ x ∧ x < p + res + pmfsDirRecLen name.length}

/-- A call, whatever it returns. -/
inductive Step (pidir : ℕ) (s : Run) : Change → Run → Prop
  | add {name : Name} {inode now size : ℕ} {e : Option Pages.Errno} {t : Pages.Tx}
      (hcall : pmfsAddEntry pidir s.size now name inode s.tx = some (e, size, t)) :
      Step pidir s (.add name inode) ⟨t, size, s.freed⟩
  | remove {name : Name} {now : ℕ} {e : Option Pages.Errno} {t : Pages.Tx}
      (hcall : pmfsRemoveEntry pidir s.size now name s.tx = (e, t)) :
      Step pidir s (.remove name)
        ⟨t, s.size, s.freed ∪ takenBytes s.tx.mem pidir s.size name⟩

/-- What a call logs fits: never more than two entries. -/
def Run.Fits (s : Run) : Prop := s.tx.trans.numUsed + 2 ≤ s.tx.trans.numEntries

/-- An addition does not put its entry over bytes of one that was taken out. -/
def Run.Clear (pidir : ℕ) (s : Run) : Change → Prop
  | .add name _ => ∀ p de, findPlace s.tx.mem pidir name (s.size / blockSize) 0 = some (p, de) →
      ∀ y, newEntry (blockAt s.tx.mem p) de ≤ y →
        y < newEntry (blockAt s.tx.mem p) de + 12 + name.length → p + y ∉ s.freed
  | .remove _ => True

/-- Any number of calls, each as `ok` allows. -/
abbrev Reaches (pidir : ℕ) (ok : Run → Change → Prop) : Run → Run → Prop :=
  Relation.ReflTransGen fun s t => ∃ c, c.Legal ∧ ok s c ∧ Step pidir s c t

/-- A transaction that has logged nothing yet. -/
structure Begun (pidir : ℕ) (s : Run) : Prop where
  numUsed : s.tx.trans.numUsed = 0
  size : s.size = iSize s.tx.mem pidir
  freed : s.freed = ∅

/-- The directory as a sequence of blocks. -/
def dirAt (m : Mem) (pidir : ℕ) : DirInode :=
  ⟨pidir, (List.range (iSize m pidir / blockSize)).map fun k =>
    blockAt m (pmfsFindDataBlock m pidir k), 0⟩

/-- The directory in `m` is that in `m₀`: its inode and its tree are the same, each block is tiled
by entries that the code accepts, and the names are bound to the same inode numbers. -/
structure Restored (pidir : ℕ) (m₀ m : Mem) : Prop where
  inode : ∀ x, pidir ≤ x → x < pidir + 48 → m x = m₀ x
  tree : ∀ k, pmfsFindDataBlock m pidir k = pmfsFindDataBlock m₀ pidir k
  tiled : ∀ k < iSize m₀ pidir / blockSize, ∃ es,
    Tiles (blockAt m (pmfsFindDataBlock m pidir k)) 0 es blockSize ∧
    ∀ pre e post, es = pre ++ e :: post →
      pmfsCheckDirEntry (blockAt m (pmfsFindDataBlock m pidir k)) (span pre)
  names : ∀ map, Represents (dirAt m₀ pidir) map ↔ Represents (dirAt m pidir) map

/-! ## The invariant -/

/-- The state of a run that began with the memory `m₀`. -/
structure Inv (sbi : SbInfo) (pidir : ℕ) (m₀ : Mem) (own₀ : Owner) (n₀ : ℕ) (own : Owner) (n : ℕ)
    (s : Run) : Prop where
  stored : Stored own pidir n s.tx.mem s.tx.free
  size : s.size = n * blockSize
  logs : s.tx.Logs sbi
  ext : Extends own₀ own
  le : n₀ ≤ n
  same : ∀ k < n₀, pmfsFindDataBlock s.tx.mem pidir k = pmfsFindDataBlock m₀ pidir k
  inode : ∀ x, pidir ≤ x → x < pidir + 48 → s.tx.undone sbi x = m₀ x
  nodes : ∀ x ∈ nodes own₀, s.tx.undone sbi x = m₀ x
  kept : ∀ k < n₀, ∃ es₀, Tiles (blockAt m₀ (pmfsFindDataBlock m₀ pidir k)) 0 es₀ blockSize ∧
    Kept es₀ {y | pmfsFindDataBlock s.tx.mem pidir k + y ∈ s.freed}
      (blockAt (s.tx.undone sbi) (pmfsFindDataBlock s.tx.mem pidir k))
      (blockAt s.tx.mem (pmfsFindDataBlock s.tx.mem pidir k))

/-- A part of a call that changes block `k`, and may add it to the directory. -/
structure Changes (sbi : SbInfo) (pidir : ℕ) (own own' : Owner) (n n' k : ℕ) (touched : Set ℕ)
    (s t : Pages.Tx) : Prop where
  logs : t.Logs sbi
  ext : Extends own own'
  room : Room pidir own' t.free
  tree : Tree own' t.mem pidir
  size : iSize t.mem pidir = n' * blockSize
  le : n ≤ n'
  new : ∀ j < n', j ≠ k → j < n
  find : ∀ j < n, pmfsFindDataBlock t.mem pidir j = pmfsFindDataBlock s.mem pidir j
  blocks : ∀ j, pmfsFindDataBlock t.mem pidir j ≠ 0 ↔ j < n'
  mem : ∀ j < n, j ≠ k → ∀ x ∈ page (pmfsFindDataBlock s.mem pidir j), t.mem x = s.mem x
  undone : ∀ x, x ∉ newBytes own own' → x ∉ touched → t.undone sbi x = s.undone sbi x
  touched : ∀ x ∈ touched, ∃ p, own' p = some (0, k) ∧ x ∈ page p

variable {sbi : SbInfo} {pidir now p n n₀ n' k inode de size x y : ℕ} {name : Name} {s t : Pages.Tx}
  {m m₀ : Mem} {own own' own₀ : Owner} {es es₀ : List Dirent} {freed : Set ℕ} {r u : Run}
  {touched : Set ℕ} {c : Change} {f : Block → Block}

theorem Stored.owner (h : Stored own pidir n m s.free) (hk : k < n) :
    own (pmfsFindDataBlock m pidir k) = some (0, k) ∧
    Usable pidir (pmfsFindDataBlock m pidir k) := by
  have hown := h.tree.own_find ((h.blocks k).mpr hk)
  exact ⟨hown, h.room.usable _ (by simp [hown])⟩

theorem Stored.lt (h : Stored own pidir n m s.free) (hk : k < n) : k < 512 ^ 3 :=
  h.tree.lt_of_find ((h.blocks k).mpr hk)

theorem Changes.apart (h : Changes sbi pidir own own' n n' k touched s t) {l j : ℕ}
    (hp : own p = some (l, j)) (hne : l = 0 → j ≠ k) (hx : x ∈ page p) :
    x ∉ newBytes own own' ∧ x ∉ touched := by
  have hold : own p ≠ none := by simp [hp]
  have huse := h.room.usable p (h.ext.ne_none hold)
  refine ⟨?_, fun hin => ?_⟩
  · rintro ⟨q, hnone, hnew, hin⟩
    refine page_disjoint huse (h.room.usable q hnew) ?_ hx hin
    rintro rfl
    exact hold hnone
  · obtain ⟨q, hq, hin⟩ := h.touched x hin
    refine page_disjoint huse (h.room.usable q (by simp [hq])) ?_ hx hin
    rintro rfl
    rw [h.ext p hold, hp] at hq
    cases hq
    exact hne rfl rfl

theorem Changes.apart_inode (h : Changes sbi pidir own own' n n' k touched s t) (hle : pidir ≤ x)
    (hlt : x < pidir + 48) : x ∉ newBytes own own' ∧ x ∉ touched := by
  refine ⟨newBytes_apart h.room hle hlt, fun hin => ?_⟩
  obtain ⟨q, hq, hin⟩ := h.touched x hin
  have := (h.room.usable q (by simp [hq])).apart
  obtain ⟨hqle, hqlt⟩ := hin
  omega

/-- What a part of a call preserves, when what it does to its own block is known. -/
theorem Inv.change (h : Inv sbi pidir m₀ own₀ n₀ own n r)
    (hc : Changes sbi pidir own own' n n' k touched r.tx t) (hfreed : r.freed ⊆ freed)
    (htile : k < n' → ∃ es, Tiles (blockAt t.mem (pmfsFindDataBlock t.mem pidir k)) 0 es blockSize)
    (hkept : k < n₀ → ∀ es₀,
      Kept es₀ {y | pmfsFindDataBlock r.tx.mem pidir k + y ∈ r.freed}
        (blockAt (r.tx.undone sbi) (pmfsFindDataBlock r.tx.mem pidir k))
        (blockAt r.tx.mem (pmfsFindDataBlock r.tx.mem pidir k)) →
      Kept es₀ {y | pmfsFindDataBlock r.tx.mem pidir k + y ∈ freed}
        (blockAt (t.undone sbi) (pmfsFindDataBlock r.tx.mem pidir k))
        (blockAt t.mem (pmfsFindDataBlock r.tx.mem pidir k))) :
    Inv sbi pidir m₀ own₀ n₀ own' n' ⟨t, n' * blockSize, freed⟩ := by
  have hst := h.stored
  have hblock : ∀ j < n, j ≠ k → ∀ y < blockSize,
      blockAt t.mem (pmfsFindDataBlock r.tx.mem pidir j) y =
        blockAt r.tx.mem (pmfsFindDataBlock r.tx.mem pidir j) y :=
    fun j hj hne y hy => hc.mem j hj hne _ (mem_page hy)
  refine ⟨⟨hc.room, hc.tree, by have := hst.pos; have := hc.le; omega, hc.size, hc.blocks,
    fun j hj => ?_⟩, rfl, hc.logs, h.ext.trans hc.ext, h.le.trans hc.le, fun j hj => ?_,
    fun x hle hlt => ?_, fun x hx => ?_, fun j hj => ?_⟩
  · by_cases hjk : j = k
    · rw [hjk]
      exact htile (hjk ▸ hj)
    · have hjn := hc.new j hj hjk
      obtain ⟨es, htiles⟩ := hst.tiled j hjn
      refine ⟨es, ?_⟩
      rw [hc.find j hjn]
      exact htiles.congr fun y _ hy => hblock j hjn hjk y hy
  · exact (hc.find j (by have := h.le; omega)).trans (h.same j hj)
  · have hout := hc.apart_inode hle hlt
    exact (hc.undone x hout.1 hout.2).trans (h.inode x hle hlt)
  · refine Eq.trans ?_ (h.nodes x hx)
    obtain ⟨p, l, i, hp, hin⟩ := hx
    have hout := hc.apart ((h.ext p (by simp [hp])).trans hp) (by simp) hin
    exact hc.undone x hout.1 hout.2
  · have hjn : j < n := by have := h.le; omega
    obtain ⟨es₀, htiles, hold⟩ := h.kept j hj
    refine ⟨es₀, htiles, ?_⟩
    dsimp only
    rw [hc.find j hjn]
    by_cases hjk : j = k
    · subst hjk
      exact hkept hj es₀ hold
    · have hmono := hold.mono fun y => @hfreed (pmfsFindDataBlock r.tx.mem pidir j + y)
      refine hmono.congr (fun y hy => ?_) (hblock j hjn hjk)
      have hout := hc.apart (hst.owner hjn).1 (fun _ => hjk) (mem_page hy)
      exact hc.undone _ hout.1 hout.2

/-- A change of a block leaves the tree and all other pages alone. -/
theorem written_tree {i : ℕ} {free : List ℕ} (hw : Written sbi pidir p i f s t)
    (hroom : Room pidir own free) (htree : Tree own s.mem pidir) (hown : own p = some (0, k)) :
    Tree own t.mem pidir ∧
    (∀ j, pmfsFindDataBlock t.mem pidir j = pmfsFindDataBlock s.mem pidir j) ∧
    iSize t.mem pidir = iSize s.mem pidir ∧
    ∀ q l j, own q = some (l, j) → (l = 0 → j ≠ k) → ∀ x ∈ page q, t.mem x = s.mem x := by
  have huse := hroom.usable p (by simp [hown])
  have hinode : ∀ x, pidir ≤ x → x < pidir + 24 → t.mem x = s.mem x := by
    intro x hle hlt
    refine hw.frame x (fun hin => ?_) fun hin => by have := hin.1; omega
    have := huse.apart
    obtain ⟨hple, hplt⟩ := hin
    omega
  have hpage : ∀ q l j, own q = some (l, j) → (l = 0 → j ≠ k) → ∀ x ∈ page q,
      t.mem x = s.mem x := by
    intro q l j hq hne x hx
    have huse' := hroom.usable q (by simp [hq])
    refine hw.frame x (page_disjoint huse' huse ?_ hx) (page_notMem_times huse' hx)
    rintro rfl
    rw [hown] at hq
    cases hq
    exact hne rfl rfl
  obtain ⟨htree', hfind⟩ := htree.congr (fun x hle hlt => hinode x (by omega) (by omega))
    fun x hx => by
      obtain ⟨q, l, j, hq, hin⟩ := hx
      exact hpage q _ j hq (by simp) x hin
  exact ⟨htree', hfind, readLE_congr fun x hle hlt => hinode x (by omega) (by omega), hpage⟩

/-- A change of a block that the directory has. -/
theorem Inv.written (h : Inv sbi pidir m₀ own₀ n₀ own n r) (hk : k < n) {i : ℕ}
    (hw : Written sbi pidir (pmfsFindDataBlock r.tx.mem pidir k) i f r.tx t)
    (hfreed : r.freed ⊆ freed)
    (htile : ∃ es, Tiles (f (blockAt r.tx.mem (pmfsFindDataBlock r.tx.mem pidir k))) 0 es blockSize)
    (hkept : k < n₀ → ∀ es₀,
      Kept es₀ {y | pmfsFindDataBlock r.tx.mem pidir k + y ∈ r.freed}
        (blockAt (r.tx.undone sbi) (pmfsFindDataBlock r.tx.mem pidir k))
        (blockAt r.tx.mem (pmfsFindDataBlock r.tx.mem pidir k)) →
      Kept es₀ {y | pmfsFindDataBlock r.tx.mem pidir k + y ∈ freed}
        (blockAt (t.undone sbi) (pmfsFindDataBlock r.tx.mem pidir k))
        (blockAt t.mem (pmfsFindDataBlock r.tx.mem pidir k))) :
    Inv sbi pidir m₀ own₀ n₀ own n ⟨t, r.size, freed⟩ := by
  have hst := h.stored
  obtain ⟨hown, huse⟩ := hst.owner hk
  obtain ⟨htree, hfind, hsize, hpage⟩ := written_tree hw hst.room hst.tree hown
  have hc : Changes sbi pidir own own n n k (page (pmfsFindDataBlock r.tx.mem pidir k)) r.tx t :=
    ⟨hw.advances.logs, .refl, by rw [hw.free]; exact hst.room, htree, hsize.trans hst.size, le_rfl,
      fun j hj _ => hj, fun j _ => hfind j, fun j => by rw [hfind]; exact hst.blocks j,
      fun j hj hjk x hx => hpage _ 0 j (hst.owner hj).1 (fun _ => hjk) x hx,
      fun x _ hx => hw.advances.undone x hx, fun x hx => ⟨_, hown, hx⟩⟩
  rw [h.size]
  refine h.change hc hfreed (fun _ => ?_) hkept
  obtain ⟨es, htiles⟩ := htile
  refine ⟨es, ?_⟩
  rw [hfind]
  exact htiles.congr fun y _ hy => hw.block y hy

/-- An allocation leaves the blocks of the directory alone. -/
theorem extended_data {e : Option Pages.Errno} {free : List ℕ}
    (h : Extended sbi pidir n own own' s (e, t)) (hroom : Room pidir own free)
    (hown : own p = some (0, k)) (hx : x ∈ page p) : t.mem x = s.mem x := by
  have hold : own p ≠ none := by simp [hown]
  have huse := hroom.usable p hold
  refine h.frame x (fun hin => ?_) ?_
  · have := fields_subset hin
    have := huse.apart
    obtain ⟨hle, hlt⟩ := hx
    omega
  · rintro (⟨q, hnone, hnew, hin⟩ | ⟨q, l, j, hq, hin⟩)
    · refine page_disjoint huse (h.room.usable q hnew) ?_ hx hin
      rintro rfl
      exact hold hnone
    · refine page_disjoint huse (hroom.usable q (by simp [hq])) ?_ hx hin
      rintro rfl
      rw [hown] at hq
      cases hq

theorem Inv.mono (h : Inv sbi pidir m₀ own₀ n₀ own n r) (hfreed : r.freed ⊆ freed) :
    Inv sbi pidir m₀ own₀ n₀ own n ⟨r.tx, r.size, freed⟩ := by
  refine ⟨h.stored, h.size, h.logs, h.ext, h.le, h.same, h.inode, h.nodes, fun k hk => ?_⟩
  obtain ⟨es₀, htiles, hkept⟩ := h.kept k hk
  exact ⟨es₀, htiles, hkept.mono fun y => @hfreed (pmfsFindDataBlock r.tx.mem pidir k + y)⟩

/-- A log entry changes neither memory nor what an abort leaves. -/
theorem Inv.log {addr i : ℕ} (h : Inv sbi pidir m₀ own₀ n₀ own n r)
    (hrec : Recorded sbi addr i r.tx t) :
    Inv sbi pidir m₀ own₀ n₀ own n ⟨t, r.size, r.freed⟩ := by
  obtain ⟨hst, hsize, -, hext, hle, hsame, hinode, hnodes, hkept⟩ := h
  refine ⟨?_, hsize, hrec.logs, hext, hle, ?_, ?_, ?_, ?_⟩
  · dsimp only
    rw [hrec.mem, hrec.free]
    exact hst
  · dsimp only
    rwa [hrec.mem]
  · dsimp only
    rwa [hrec.undone]
  · dsimp only
    rwa [hrec.undone]
  · dsimp only
    rwa [hrec.undone, hrec.mem]

/-! ## Calls -/

/-- The blocks that a loop still has to look at. -/
def Blocks (m : Mem) (pidir i k : ℕ) : Prop :=
  ∀ j, k ≤ j → j < k + i → pmfsFindDataBlock m pidir j ≠ 0 ∧
    ∃ es, Tiles (blockAt m (pmfsFindDataBlock m pidir j)) 0 es blockSize

theorem addToBlocks_eq {i : ℕ} (h : Blocks s.mem pidir i k) :
    addToBlocks pidir now name inode i k s = some
      (match findPlace s.mem pidir name i k with
        | some (p, de) => (none, fillDirent true pidir now name inode p de s)
        | none => (some .enospc, s)) := by
  have hpos := add_le_pmfsDirRecLen name.length
  induction i generalizing k with
  | zero => rfl
  | succ i ih =>
    obtain ⟨hne, es, htiles⟩ := h k le_rfl (by omega)
    have hrest : Blocks s.mem pidir i (k + 1) := fun j hle hlt => h j (by omega) (by omega)
    rw [addToBlocks, findPlace, if_neg hne, pmfsAddDirentToBuf]
    obtain ⟨pre, e, post, -, -, hfound⟩ | hnone :=
      findRoom_spec htiles (show 0 < pmfsDirRecLen name.length by omega)
    · rw [hfound]
      rfl
    · rw [hnone]
      exact ih hrest

theorem findPlace_spec {i : ℕ} (h : findPlace m pidir name i k = some (p, de)) :
    ∃ j, k ≤ j ∧ j < k + i ∧ p = pmfsFindDataBlock m pidir j ∧
      findRoom (blockAt m p) (pmfsDirRecLen name.length) 0 = some (some de) := by
  induction i generalizing k with
  | zero => cases h
  | succ i ih =>
    rw [findPlace] at h
    split at h
    · rename_i hfound
      cases h
      exact ⟨k, le_rfl, by omega, rfl, hfound⟩
    · obtain ⟨j, hle, hlt, hp⟩ := ih h
      exact ⟨j, by omega, by omega, hp⟩

theorem findEntry_spec {i res : ℕ} {prev : Option ℕ}
    (h : findEntry m pidir name i k = some (p, res, prev)) :
    ∃ j, k ≤ j ∧ j < k + i ∧ p = pmfsFindDataBlock m pidir j ∧
      pmfsSearchDirblock (blockAt m p) name = .found res prev := by
  induction i generalizing k with
  | zero => cases h
  | succ i ih =>
    rw [findEntry] at h
    split at h
    · cases h
    · split at h
      · rename_i hfound
        cases h
        exact ⟨k, le_rfl, by omega, rfl, hfound⟩
      · obtain ⟨j, hle, hlt, hp⟩ := ih h
        exact ⟨j, by omega, by omega, hp⟩

theorem Inv.blocks (h : Inv sbi pidir m₀ own₀ n₀ own n r) : Blocks r.tx.mem pidir n 0 :=
  fun j _ hj => ⟨(h.stored.blocks j).mpr (by omega), h.stored.tiled j (by omega)⟩

/-- The allocation for a new block fails. -/
theorem Inv.extended {e : Pages.Errno} (h : Inv sbi pidir m₀ own₀ n₀ own n r)
    (hext : Extended sbi pidir n own own' r.tx (some e, t)) :
    Inv sbi pidir m₀ own₀ n₀ own' n ⟨t, r.size, r.freed⟩ := by
  have hst := h.stored
  have hfind : ∀ j, pmfsFindDataBlock t.mem pidir j = pmfsFindDataBlock r.tx.mem pidir j := by
    intro j
    by_cases hj : j = n
    · rw [hj]
      exact hext.failed (by simp)
    · exact hext.others j hj
  have hsize : iSize t.mem pidir = iSize r.tx.mem pidir := by
    refine readLE_congr fun x hle hlt => hext.frame x ?_ ?_
    · rintro (hx | hx) <;> omega
    · rintro (hx | hx)
      · exact newBytes_apart hext.room (by omega) (by omega) hx
      · exact nodes_apart hst.room (by omega) (by omega) hx
  rw [h.size]
  have hc : Changes sbi pidir own own' n n n ∅ r.tx t := by
    refine ⟨hext.advances.logs, hext.ext, hext.room, hext.tree, hsize.trans hst.size, le_rfl,
      fun j hj _ => hj, fun j _ => hfind j, fun j => by rw [hfind]; exact hst.blocks j,
      fun j hj _ x hx => ?_, fun x hx _ => hext.advances.undone x hx, fun x hx => absurd hx (by simp)⟩
    exact extended_data hext hst.room (hst.owner hj).1 hx
  exact h.change hc (fun _ => id) (fun hlt => absurd hlt (by omega))
    fun hlt => absurd hlt (by have := h.le; omega)

/-- The directory gets a new block with one entry. -/
theorem Inv.grown (h : Inv sbi pidir m₀ own₀ n₀ own n r) (hsaved : Saved sbi pidir r.tx)
    (hext : Extended sbi pidir n own own' r.tx (none, t)) (hne : name ≠ [])
    (hname : name.length ≤ pmfsNameLen) (hinode : inode < 2 ^ 64)
    (hp : pmfsFindDataBlock (setISize t.mem pidir ((n + 1) * blockSize)) pidir n = p) :
    p ≠ 0 ∧ Inv sbi pidir m₀ own₀ n₀ own' (n + 1)
      ⟨fillDirent false pidir now name inode p 0
        ((t.store fun m => setISize m pidir ((n + 1) * blockSize)).store
          (storeBlock p fun b => setDeLen (setIno b 0 0) 0 blockSize)),
        (n + 1) * blockSize, r.freed⟩ := by
  have hst := h.stored
  have hout : ∀ x, x < pidir + 16 ∨ pidir + 24 ≤ x →
      setISize t.mem pidir ((n + 1) * blockSize) x = t.mem x := fun x hx =>
    writeLE_of_outside (by omega)
  -- the size does not belong to the tree
  obtain ⟨htree, hfind⟩ := hext.tree.congr (fun x _ hlt => hout x (by omega))
    fun x hx => hout x (by
      by_contra hin
      exact nodes_apart hext.room (by omega) (by omega) hx)
  have hfound : pmfsFindDataBlock t.mem pidir n ≠ 0 := hext.done rfl
  rw [hfind] at hp
  have hlt := hext.tree.lt_of_find hfound
  have hown := hext.tree.own_find hfound
  rw [hp] at hfound hown
  have huse := hext.room.usable p (by simp [hown])
  have hsaved' : Saved sbi pidir t := hsaved.mono hext.advances.logged
  have hundone : ∀ x, (t.store fun m => setISize m pidir ((n + 1) * blockSize)).undone sbi x =
      t.undone sbi x := by
    intro x
    refine undone_store ?_
    by_cases hx : x < pidir + 16 ∨ pidir + 24 ≤ x
    · exact .inr (hout x hx)
    · exact .inl (hsaved' x (by omega) (by omega))
  have hw := @fillDirent_new sbi pidir now p inode name
    (t.store fun m => setISize m pidir ((n + 1) * blockSize)) (hext.advances.logs.store _) hsaved'
    huse hname
  obtain ⟨htree', hfind', hsize', hpage'⟩ := written_tree hw hext.room htree hown
  have hsize : iSize (setISize t.mem pidir ((n + 1) * blockSize)) pidir = (n + 1) * blockSize := by
    refine readLE_writeLE ?_
    unfold blockSize
    omega
  refine ⟨hfound, ?_⟩
  have hc : Changes sbi pidir own own' n (n + 1) n (page p) r.tx
      (fillDirent false pidir now name inode p 0
        ((t.store fun m => setISize m pidir ((n + 1) * blockSize)).store
          (storeBlock p fun b => setDeLen (setIno b 0 0) 0 blockSize))) := by
    have hfinds : ∀ j, pmfsFindDataBlock (fillDirent false pidir now name inode p 0
        ((t.store fun m => setISize m pidir ((n + 1) * blockSize)).store
          (storeBlock p fun b => setDeLen (setIno b 0 0) 0 blockSize))).mem pidir j =
        pmfsFindDataBlock t.mem pidir j := fun j => (hfind' j).trans (hfind j)
    refine ⟨hw.advances.logs, hext.ext, by rw [hw.free]; exact hext.room, htree',
      hsize'.trans hsize, by omega, fun j hj hjn => by omega,
      fun j hj => (hfinds j).trans (hext.others j (by omega)), fun j => ?_, fun j hj hjn x hx => ?_,
      fun x hnew hx => ?_, fun x hx => ⟨p, hown, hx⟩⟩
    · rw [hfinds]
      by_cases hj : j = n
      · rw [hj, hp]
        exact ⟨fun _ => by omega, fun _ => hfound⟩
      · rw [hext.others j hj, hst.blocks]
        omega
    · have howner := (hst.owner hj).1
      have hpage := hpage' _ 0 j ((hext.ext _ (by simp [howner])).trans howner) (fun _ => hjn) x hx
      refine hpage.trans ((hout x ?_).trans (extended_data hext hst.room howner hx))
      have := (hst.owner hj).2.apart
      obtain ⟨hle, hlt⟩ := hx
      omega
    · exact (hw.advances.undone x hx).trans ((hundone x).trans (hext.advances.undone x hnew))
  refine h.change hc (fun _ => id) (fun _ => ?_) fun hlt => absurd hlt (by have := h.le; omega)
  rw [hfind', mem_store, hfind, hp]
  exact ⟨_, (tiles_fresh hne hname hinode).congr fun y _ hy => hw.block y hy⟩

/-- `pmfs_add_entry`, whatever it returns. -/
theorem Inv.add {e : Option Pages.Errno} (h : Inv sbi pidir m₀ own₀ n₀ own n r)
    (hpi : Nameable sbi pidir 48) (hlegal : (Change.add name inode).Legal) (hfit : r.Fits)
    (hclear : r.Clear pidir (.add name inode))
    (hcall : pmfsAddEntry pidir r.size now name inode r.tx = some (e, size, t)) :
    ∃ own' n', Inv sbi pidir m₀ own₀ n₀ own' n' ⟨t, size, r.freed⟩ := by
  obtain ⟨hname, hpos, hinode⟩ := hlegal
  rw [pmfsAddEntry] at hcall
  split at hcall
  · cases hcall
    exact ⟨own, n, h⟩
  rename_i hlen
  have hne : name ≠ [] := by
    rintro rfl
    exact hlen rfl
  unfold Run.Fits at hfit
  obtain ⟨hrec, hadv, hsaved⟩ := log_inode h.logs hpi (by omega)
  have hlog := h.log hrec
  have hused := hadv.numUsed_le
  have hmore : (r.tx.log pidir maxDataPerLentry).trans.numUsed + 1 ≤
      (r.tx.log pidir maxDataPerLentry).trans.numEntries := by omega
  have hblocks : r.size / blockSize = n := by
    rw [h.size]
    exact Nat.mul_div_cancel _ (by decide)
  have hplace : findPlace (r.tx.log pidir maxDataPerLentry).mem pidir name n 0 =
      findPlace r.tx.mem pidir name n 0 := by rw [hrec.mem]
  simp only [hblocks] at hcall
  rw [addToBlocks_eq hlog.blocks, hplace] at hcall
  rw [Run.Clear, hblocks] at hclear
  split at hcall
  · rename_i hadd
    cases hadd
  · rename_i s hadd
    split at hadd
    · cases hadd
    · -- no block has room
      cases hadd
      obtain ⟨own', hext⟩ := @pmfsAllocBlocks_spec sbi own pidir n false _ hlog.logs hsaved
        hlog.stored.room hlog.stored.tree hlog.stored.pos hmore
      split at hcall
      · rename_i halloc
        cases hcall
        rw [halloc] at hext
        exact ⟨own', n, hlog.extended hext⟩
      · rename_i s halloc
        rw [halloc] at hext
        have hsucc : r.size + blockSize = (n + 1) * blockSize := by rw [h.size, Nat.succ_mul]
        simp only [hsucc] at hcall
        obtain ⟨hfound, hgrown⟩ := hlog.grown hsaved hext hne hname hinode rfl
        rw [mem_store, if_neg hfound, pmfsAddDirentToBuf, Option.map_some, Option.some_inj,
          Prod.mk.injEq, Prod.mk.injEq] at hcall
        obtain ⟨-, hsize, ht⟩ := hcall
        rw [← hsize, ← ht]
        exact ⟨own', n + 1, hgrown⟩
  · rename_i e' s hno hadd
    cases hcall
    split at hadd
    · rename_i p de hfound
      cases hadd
      obtain ⟨k, -, hk, rfl, hroom⟩ := findPlace_spec hfound
      rw [Nat.zero_add] at hk
      rw [← hrec.mem] at hroom hfound hclear
      obtain ⟨es, htiles⟩ := hlog.stored.tiled k hk
      rw [← hrec.mem]
      obtain ⟨hw, hkept⟩ := @fillDirent_spec sbi pidir now _ inode de name _ es hlog.logs hsaved
        (hlog.stored.owner hk).2 htiles hroom hmore
      have htile := htiles.exists_insertDirent hne hname hinode hroom
      refine ⟨own, n, hlog.written hk hw (fun _ => id) htile fun hk₀ es₀ hold => ?_⟩
      exact hkept es₀ _ hold hne hname hpos.ne' hinode (hclear _ _ hfound)
    · cases hadd
      exact (hno rfl).elim

/-- `pmfs_remove_entry`, whatever it returns. -/
theorem Inv.remove {e : Option Pages.Errno} (h : Inv sbi pidir m₀ own₀ n₀ own n r)
    (hpi : Nameable sbi pidir 48) (hfit : r.Fits)
    (hcall : pmfsRemoveEntry pidir r.size now name r.tx = (e, t)) :
    Inv sbi pidir m₀ own₀ n₀ own n
      ⟨t, r.size, r.freed ∪ takenBytes r.tx.mem pidir r.size name⟩ := by
  have hblocks : r.size / blockSize = n := by
    rw [h.size]
    exact Nat.mul_div_cancel _ (by decide)
  have hsub : r.freed ⊆ r.freed ∪ takenBytes r.tx.mem pidir r.size name := fun _ => .inl
  rw [pmfsRemoveEntry, hblocks] at hcall
  split at hcall
  · cases hcall
    exact h.mono hsub
  split at hcall
  · cases hcall
    exact h.mono hsub
  · rename_i p res prev hentry
    cases hcall
    obtain ⟨k, -, hk, rfl, hfound⟩ := findEntry_spec hentry
    rw [Nat.zero_add] at hk
    obtain ⟨es, htiles⟩ := h.stored.tiled k hk
    obtain ⟨hw, hundone⟩ := @unlinkAt_spec sbi pidir now _ name r.tx es res prev h.logs hpi
      (h.stored.owner hk).2 htiles hfound hfit
    refine h.written hk hw hsub (htiles.exists_unlinkDirent hfound) fun _ es₀ hold => ?_
    have hundone' : (unlinkAt pidir now (pmfsFindDataBlock r.tx.mem pidir k) res prev r.tx).undone
        sbi = r.tx.undone sbi := hundone
    refine ((hold.remove hfound).mono ?_).congr (fun y _ => ?_) hw.block
    · rintro y (hy | ⟨hle, hlt⟩)
      · exact .inl hy
      · rw [← hblocks] at hentry
        exact .inr ⟨_, res, prev, hentry, by omega, by omega⟩
    · exact congrFun hundone' _

/-- Every call returns. -/
theorem Inv.exists_step (h : Inv sbi pidir m₀ own₀ n₀ own n r) (hpi : Nameable sbi pidir 48)
    (hfit : r.Fits) (c : Change) : ∃ u, Step pidir r c u := by
  cases c with
  | remove name => exact ⟨_, @Step.remove _ _ _ 0 _ _ rfl⟩
  | add name inode =>
    suffices hres : ∃ v, pmfsAddEntry pidir r.size 0 name inode r.tx = some v by
      obtain ⟨⟨e, size, t⟩, hcall⟩ := hres
      exact ⟨_, .add hcall⟩
    unfold Run.Fits at hfit
    have hlog := h.log (log_inode h.logs hpi (by omega)).1
    have hblocks : r.size / blockSize = n := by
      rw [h.size]
      exact Nat.mul_div_cancel _ (by decide)
    rw [pmfsAddEntry]
    simp only [hblocks]
    rw [addToBlocks_eq hlog.blocks]
    simp only [pmfsAddDirentToBuf, Option.map_some]
    split
    · exact ⟨_, rfl⟩
    · split
      · rename_i hadd
        cases hadd
      · split
        · exact ⟨_, rfl⟩
        · split <;> exact ⟨_, rfl⟩
      · exact ⟨_, rfl⟩

/-- One call keeps the invariant. -/
theorem Inv.step (h : Inv sbi pidir m₀ own₀ n₀ own n r) (hpi : Nameable sbi pidir 48)
    (hlegal : c.Legal) (hfit : r.Fits) (hclear : r.Clear pidir c) (hstep : Step pidir r c u) :
    ∃ own' n', Inv sbi pidir m₀ own₀ n₀ own' n' u := by
  cases hstep with
  | add hcall => exact h.add hpi hlegal hfit hclear hcall
  | remove hcall => exact ⟨own, n, h.remove hpi hfit hcall⟩

theorem Reaches.inv (hrun : Reaches pidir (fun s c => s.Fits ∧ s.Clear pidir c) r u)
    (h : Inv sbi pidir m₀ own₀ n₀ own n r) (hpi : Nameable sbi pidir 48) :
    ∃ own' n', Inv sbi pidir m₀ own₀ n₀ own' n' u := by
  induction hrun with
  | refl => exact ⟨own, n, h⟩
  | tail _ hstep ih =>
    obtain ⟨c, hlegal, ⟨hfit, hclear⟩, hstep⟩ := hstep
    obtain ⟨own', n', h'⟩ := ih
    exact h'.step hpi hlegal hfit hclear hstep

/-! ## Aborting -/

theorem Begun.inv (h : Begun pidir r) (hst : Stored own pidir n r.tx.mem r.tx.free) :
    Inv sbi pidir r.tx.mem own n own n r := by
  have hundone := @undone_begin sbi r.tx h.numUsed
  refine ⟨hst, h.size.trans hst.size, logs_begin h.numUsed, .refl, le_rfl, fun _ _ => rfl,
    fun x _ _ => congrFun hundone x, fun x _ => congrFun hundone x, fun k hk => ?_⟩
  obtain ⟨es, htiles⟩ := hst.tiled k hk
  refine ⟨es, htiles, ?_⟩
  rw [hundone]
  exact htiles.kept.mono (Set.empty_subset _)

/-- Two directories of as many blocks, block by block with the same bindings. -/
theorem tiled_map {l : List ℕ} {g : ℕ → Block} {f : ℕ → Block}
    (h : ∀ k ∈ l, ∃ es es', Tiles (f k) 0 es blockSize ∧ Tiles (g k) 0 es' blockSize ∧
      bindings es' = bindings es) :
    ∃ ess ess', Tiled (l.map f) ess ∧ Tiled (l.map g) ess' ∧ contents ess' = contents ess ∧
      (ess' = [] ↔ ess = []) := by
  induction l with
  | nil => exact ⟨[], [], .nil, .nil, rfl, Iff.rfl⟩
  | cons k l ih =>
    obtain ⟨es, es', hf, hg, heq⟩ := h k (by simp)
    obtain ⟨ess, ess', hfs, hgs, heqs, -⟩ := ih fun j hj => h j (by simp [hj])
    refine ⟨es :: ess, es' :: ess', .cons hf hfs, .cons hg hgs, ?_, by simp⟩
    rw [contents, List.flatMap_cons, heq, ← contents, heqs]
    rfl

theorem represents_congr {dir dir' : DirInode} {ess ess' : List (List Dirent)}
    {map : Name → Option ℕ} (h : Tiled dir.blocks ess) (h' : Tiled dir'.blocks ess')
    (heq : contents ess' = contents ess) (hnil : ess' = [] ↔ ess = [])
    (hmap : Represents dir map) : Represents dir' map := by
  obtain ⟨fs, htiled, hne, hmaps⟩ := hmap
  obtain rfl := h.unique htiled
  exact ⟨ess', h', fun hn => hne (hnil.mp hn), heq ▸ hmaps⟩

/-- What an abort leaves of a run. -/
theorem Inv.abort (h : Inv sbi pidir m₀ own₀ n₀ own n r)
    {free : List ℕ} (hst : Stored own₀ pidir n₀ m₀ free) :
    Restored pidir m₀ (r.tx.undone sbi) ∧ Stored own₀ pidir n₀ (r.tx.undone sbi) r.tx.free := by
  obtain ⟨htree, hfind⟩ := hst.tree.congr (fun x hle hlt => h.inode x (by omega) (by omega)) h.nodes
  have hsize : iSize (r.tx.undone sbi) pidir = iSize m₀ pidir :=
    readLE_congr fun x hle hlt => h.inode x (by omega) (by omega)
  have hblocks : iSize m₀ pidir / blockSize = n₀ := by
    rw [hst.size]
    exact Nat.mul_div_cancel _ (by decide)
  have htiled : ∀ k < n₀, ∃ es es',
      Tiles (blockAt m₀ (pmfsFindDataBlock m₀ pidir k)) 0 es blockSize ∧
      Tiles (blockAt (r.tx.undone sbi) (pmfsFindDataBlock (r.tx.undone sbi) pidir k)) 0 es'
        blockSize ∧ bindings es' = bindings es := by
    intro k hk
    obtain ⟨es₀, htiles, hkept⟩ := h.kept k hk
    obtain ⟨es, hleft, heq⟩ := hkept.tiles
    rw [h.same k hk] at hleft
    rw [hfind]
    exact ⟨es₀, es, htiles, hleft, heq⟩
  refine ⟨⟨h.inode, hfind, fun k hk => ?_, fun map => ?_⟩, ⟨⟨hst.room.usable, fun p hp => ?_,
    h.stored.room.nodup⟩, htree, hst.pos, hsize.trans hst.size,
    fun k => by rw [hfind]; exact hst.blocks k, fun k hk => ?_⟩⟩
  · rw [hblocks] at hk
    obtain ⟨-, es, -, htiles, -⟩ := htiled k hk
    exact ⟨es, htiles, fun pre e post hes => (hes ▸ htiles).accepted⟩
  · obtain ⟨ess, ess', h₀, h₁, heq, hnil⟩ := tiled_map fun k hk => htiled k (List.mem_range.mp hk)
    have hd₀ : Tiled (dirAt m₀ pidir).blocks ess := by
      rwa [dirAt, hblocks]
    have hd₁ : Tiled (dirAt (r.tx.undone sbi) pidir).blocks ess' := by
      rwa [dirAt, hsize, hblocks]
    exact ⟨represents_congr hd₀ hd₁ heq hnil, represents_congr hd₁ hd₀ heq.symm hnil.symm⟩
  · obtain ⟨hnone, huse⟩ := h.stored.room.unused p hp
    refine ⟨?_, huse⟩
    by_contra hold
    exact h.ext.ne_none hold hnone
  · obtain ⟨-, es, -, htiles, -⟩ := htiled k hk
    exact ⟨es, htiles⟩

/-- After any additions and removals on a directory an abort restores it: its size and tree, the
entries of each block up to unused ones, and the names. Both the restored directory and the one that
a commit would keep are such that another transaction can begin, and every call returns. -/
theorem Reaches.restored (hrun : Reaches pidir (fun s c => s.Fits ∧ s.Clear pidir c) r u)
    (hbegun : Begun pidir r) (hst : Stored own pidir n r.tx.mem r.tx.free) (hpi : Nameable sbi pidir 48) :
    ∃ t v, (pmfsAbortTransaction sbi u.tx.trans).exec u.tx.image = (t, .ok v) ∧
      Restored pidir r.tx.mem t.mem ∧ Stored own pidir n t.mem u.tx.free ∧
      (∃ own' n', Stored own' pidir n' u.tx.mem u.tx.free) ∧
      (u.Fits → ∀ c, ∃ v, Step pidir u c v) := by
  obtain ⟨own', n', hinv⟩ := hrun.inv (@Begun.inv sbi _ _ _ _ hbegun hst) hpi
  obtain ⟨t, v, hexec, hmem⟩ := hinv.logs.abort
  obtain ⟨hrestored, hst'⟩ := hinv.abort hst
  rw [← hmem] at hrestored hst'
  exact ⟨t, v, hexec, hrestored, hst', ⟨own', n', hinv.stored⟩, hinv.exists_step hpi⟩

/-- A directory with the names `.`, `..` and `a`. -/
def oneName : Mem := fun x =>
  if 8192 ≤ x then insertDirent (mkdirBlock 384 128 fun _ => 0) 16 [0x61] 512 (x - 8192)
  else if x = 4105 then 0x20 else if x = 4113 then 0x10 else 0

def oneNameOwner : Owner := fun p => if p = 8192 then some (0, 0) else none

/-- A transaction with `num` entries on it. -/
def oneNameRun (num : ℕ) : Run :=
  ⟨⟨{ emptyImage with mem := oneName }, ⟨1, num, 0, 1, 0⟩, [12288]⟩, 4096, ∅⟩

theorem find_oneName (k : ℕ) :
    pmfsFindDataBlock oneName 4096 k = if 1 ≤ k then 0 else 8192 := by
  have hheight : Pages.height oneName 4096 = 0 := by decide
  have hroot : Pages.root oneName 4096 = 8192 := by decide
  rw [pmfsFindDataBlock, hheight, hroot]
  rfl

theorem tiles_oneName : Tiles (blockAt oneName 8192) 0
    [⟨384, 16, dot⟩, ⟨128, 16, dotdot⟩, ⟨512, 4064, [0x61]⟩] blockSize := by
  obtain ⟨h0, h1, h2⟩ : direntAt (blockAt oneName 8192) 0 = ⟨384, 16, dot⟩ ∧
      direntAt (blockAt oneName 8192) 16 = ⟨128, 16, dotdot⟩ ∧
      direntAt (blockAt oneName 8192) 32 = ⟨512, 4064, [0x61]⟩ := by
    decide +kernel
  exact ⟨h0, ⟨by decide, by decide, by decide, by decide⟩, h1,
    ⟨by decide, by decide, by decide, by decide⟩, h2,
    ⟨by decide, by decide, by decide, by decide⟩, rfl⟩

theorem stored_oneName : Stored oneNameOwner 4096 1 oneName [12288] := by
  have husable : Usable 4096 8192 := ⟨by decide, by decide, by decide, by decide⟩
  have hroot : Pages.root oneName 4096 = 8192 := by decide
  have hheight : Pages.height oneName 4096 = 0 := by decide
  refine ⟨⟨fun p hp => ?_, fun p hp => ?_, by decide⟩, ⟨?_, ?_, ?_⟩, Nat.one_pos,
    by decide, fun k => ?_, fun k hk => ?_⟩
  · obtain rfl : p = 8192 := by
      by_contra hne
      exact hp (if_neg hne)
    exact husable
  · obtain rfl : p = 12288 := by simpa using hp
    exact ⟨by decide, by decide, by decide, by decide, by decide⟩
  · rw [hheight]
    omega
  · rw [hroot]
    decide
  · rw [hheight, hroot]
    rfl
  · rw [find_oneName]
    split <;> omega
  · rw [find_oneName, if_neg (by omega)]
    exact ⟨_, tiles_oneName⟩

theorem begun_oneNameRun (num : ℕ) : Begun 4096 (oneNameRun num) :=
  have hsize : iSize oneName 4096 = 4096 := by decide
  ⟨rfl, hsize.symm, rfl⟩

theorem nameable_oneName : Nameable ⟨4096, false⟩ 4096 48 :=
  ⟨.direct (by decide) (by decide), by decide⟩

/-- The name `b` is added, and the transaction is aborted. -/
theorem restored_oneName : ∃ u, Step 4096 (oneNameRun 8) (.add [0x62] 640) u ∧
    ∃ t v, (pmfsAbortTransaction ⟨4096, false⟩ u.tx.trans).exec u.tx.image = (t, .ok v) ∧
      Restored 4096 oneName t.mem := by
  have hfits : (oneNameRun 8).Fits := by
    unfold Run.Fits
    decide
  have hinv : Inv ⟨4096, false⟩ 4096 oneName oneNameOwner 1 oneNameOwner 1 (oneNameRun 8) :=
    (begun_oneNameRun 8).inv stored_oneName
  obtain ⟨u, hstep⟩ := hinv.exists_step nameable_oneName hfits (.add [0x62] 640)
  have hclear : (oneNameRun 8).Clear 4096 (.add [0x62] 640) := fun p de _ y _ _ hin => hin
  have hlegal : (Change.add [0x62] 640).Legal := ⟨by decide, by decide, by decide⟩
  obtain ⟨t, v, hexec, hrestored, -⟩ := Reaches.restored
    (.single ⟨_, hlegal, ⟨hfits, hclear⟩, hstep⟩) (begun_oneNameRun 8) stored_oneName nameable_oneName
  exact ⟨u, hstep, t, v, hexec, hrestored⟩

/-- The map of the directory with the names `.`, `..` and `a`. -/
def oneNameMap : Name → Option ℕ := Function.update (mkdirMap 384 128) [0x61] (some 512)

theorem represents_oneName : Represents (dirAt oneName 4096) oneNameMap := by
  have hsize : iSize oneName 4096 = 4096 := by decide
  have hblocks : (dirAt oneName 4096).blocks = [blockAt oneName 8192] := by
    have hone : List.range (4096 / blockSize) = [0] := by decide
    rw [dirAt, hsize, hone]
    simp [find_oneName]
  have hmaps := (@maps_mkdir 384 128 16 (by decide) (by decide)).cons (b := 512)
    (show mkdirMap 384 128 [0x61] = none by decide)
  refine ⟨[_], by rw [hblocks]; exact .cons tiles_oneName .nil, by simp, hmaps.perm ?_⟩
  decide

/-- A directory with an entry for `b` is not restored. -/
theorem not_restored_of_mem {m : Mem} {es : List Dirent} {i : ℕ}
    (htiles : Tiles (blockAt m 8192) 0 es blockSize) (hmem : ([0x62], i) ∈ bindings es) :
    ¬Restored 4096 oneName m := by
  intro h
  have hsize : iSize m 4096 = 4096 := by
    have hstart : iSize oneName 4096 = 4096 := by decide
    rw [← hstart]
    exact readLE_congr fun x hle hlt => h.inode x (by omega) (by omega)
  have hblocks : (dirAt m 4096).blocks = [blockAt m 8192] := by
    have hone : List.range (4096 / blockSize) = [0] := by decide
    rw [dirAt, hsize, hone]
    simp [h.tree, find_oneName]
  obtain ⟨ess, htiled, -, hmaps⟩ := (h.names _).mp represents_oneName
  rw [hblocks] at htiled
  obtain rfl := htiled.unique (.cons htiles .nil)
  have hbound := (hmaps.mem_iff [0x62] i).mp (by simpa [contents] using hmem)
  have hfree : oneNameMap [0x62] = none := by decide
  rw [hfree] at hbound
  cases hbound

theorem search_oneName : pmfsSearchDirblock (blockAt oneName 8192) [0x61] = .found 32 (some 16) := by
  have h0 : pmfsNextEntry (blockAt oneName 8192) 0 = 16 := by decide
  have h1 : pmfsNextEntry (blockAt oneName 8192) 16 = 32 := by decide
  rw [pmfsSearchDirblock, searchFrom, if_pos (by decide), if_neg (by decide),
    if_neg (by decide), h0, searchFrom, if_pos (by decide), if_neg (by decide),
    if_neg (by decide), h1, searchFrom, if_pos (by decide), if_pos (by decide),
    if_pos (by decide)]

theorem remove_oneName : pmfsRemoveEntry 4096 4096 0 [0x61] (oneNameRun 8).tx =
    (none, unlinkAt 4096 0 8192 32 (some 16) (oneNameRun 8).tx) := by
  have hmem : (oneNameRun 8).tx.mem = oneName := rfl
  have hone : 4096 / blockSize = 1 := by decide
  have hentry : findEntry oneName 4096 [0x61] 1 0 = some (8192, 32, some 16) := by
    simp [findEntry, find_oneName, search_oneName]
  rw [pmfsRemoveEntry, hone, hmem, hentry]
  rfl

theorem add_oneName {s : Pages.Tx} {de : ℕ} (hfind : pmfsFindDataBlock s.mem 4096 0 = 8192)
    (hroom : findRoom (blockAt s.mem 8192) 16 0 = some (some de)) :
    pmfsAddEntry 4096 4096 0 [0x62] 640 s = some (none, 4096,
      fillDirent true 4096 0 [0x62] 640 8192 de (s.log 4096 maxDataPerLentry)) := by
  have hone : 4096 / blockSize = 1 := by decide
  have hrec : pmfsDirRecLen (List.length [(0x62 : UInt8)]) = 16 := by decide
  rw [pmfsAddEntry, if_neg (by decide), hone]
  simp only [addToBlocks, mem_log, hfind, pmfsAddDirentToBuf, hrec, hroom]
  rfl

/-- Memory after `a` was removed. -/
def removedMem : Mem :=
  setTimes 4096 0 (storeBlock 8192 (fun b => unlinkDirent b 32 (some 16)) oneName)

/-- The transaction in which `a` is removed and `b` is put in its place. -/
def replaced : Pages.Tx :=
  fillDirent true 4096 0 [0x62] 640 8192 16
    ((unlinkAt 4096 0 8192 32 (some 16) (oneNameRun 8).tx).log 4096 maxDataPerLentry)

/-- The transaction of one log entry in which `b` is added. -/
def unlogged : Pages.Tx :=
  fillDirent true 4096 0 [0x62] 640 8192 32 ((oneNameRun 1).tx.log 4096 maxDataPerLentry)

theorem mem_removed :
    (unlinkAt 4096 0 8192 32 (some 16) (oneNameRun 8).tx).mem = removedMem := by
  simp only [unlinkAt, mem_store, mem_log]
  rfl

theorem add_removed : pmfsAddEntry 4096 4096 0 [0x62] 640
    (unlinkAt 4096 0 8192 32 (some 16) (oneNameRun 8).tx) = some (none, 4096, replaced) := by
  have h0 : pmfsNextEntry (blockAt removedMem 8192) 0 = 16 := by decide
  refine add_oneName ?_ ?_
  · rw [mem_removed]
    decide
  · rw [mem_removed, findRoom, if_pos (by decide), if_neg (by decide),
      if_neg (by decide), h0, findRoom, if_pos (by decide), if_pos (by decide)]

theorem add_unlogged : pmfsAddEntry 4096 4096 0 [0x62] 640 (oneNameRun 1).tx =
    some (none, 4096, unlogged) := by
  have hmem : (oneNameRun 1).tx.mem = oneName := rfl
  have h0 : pmfsNextEntry (blockAt oneName 8192) 0 = 16 := by decide
  have h1 : pmfsNextEntry (blockAt oneName 8192) 16 = 32 := by decide
  refine add_oneName ?_ ?_
  · rw [hmem, find_oneName]
    rfl
  · rw [hmem, findRoom, if_pos (by decide), if_neg (by decide), if_neg (by decide),
      h0, findRoom, if_pos (by decide), if_neg (by decide), if_neg (by decide),
      h1, findRoom, if_pos (by decide), if_pos (by decide)]

theorem tiles_replaced : Tiles (blockAt (replaced.undone ⟨4096, false⟩) 8192) 0
    [⟨384, 16, dot⟩, ⟨128, 16, dotdot⟩, ⟨640, 4064, [0x62]⟩] blockSize := by
  obtain ⟨h0, h1, h2⟩ :
      direntAt (blockAt (replaced.undone ⟨4096, false⟩) 8192) 0 = ⟨384, 16, dot⟩ ∧
      direntAt (blockAt (replaced.undone ⟨4096, false⟩) 8192) 16 = ⟨128, 16, dotdot⟩ ∧
      direntAt (blockAt (replaced.undone ⟨4096, false⟩) 8192) 32 = ⟨640, 4064, [0x62]⟩ := by
    decide +kernel
  exact ⟨h0, ⟨by decide, by decide, by decide, by decide⟩, h1,
    ⟨by decide, by decide, by decide, by decide⟩, h2,
    ⟨by decide, by decide, by decide, by decide⟩, rfl⟩

theorem tiles_unlogged : Tiles (blockAt (unlogged.undone ⟨4096, false⟩) 8192) 0
    [⟨384, 16, dot⟩, ⟨128, 16, dotdot⟩, ⟨512, 16, [0x61]⟩, ⟨640, 4048, [0x62]⟩] blockSize := by
  obtain ⟨h0, h1, h2, h3⟩ :
      direntAt (blockAt (unlogged.undone ⟨4096, false⟩) 8192) 0 = ⟨384, 16, dot⟩ ∧
      direntAt (blockAt (unlogged.undone ⟨4096, false⟩) 8192) 16 = ⟨128, 16, dotdot⟩ ∧
      direntAt (blockAt (unlogged.undone ⟨4096, false⟩) 8192) 32 = ⟨512, 16, [0x61]⟩ ∧
      direntAt (blockAt (unlogged.undone ⟨4096, false⟩) 8192) 48 = ⟨640, 4048, [0x62]⟩ := by
    decide +kernel
  exact ⟨h0, ⟨by decide, by decide, by decide, by decide⟩, h1,
    ⟨by decide, by decide, by decide, by decide⟩, h2,
    ⟨by decide, by decide, by decide, by decide⟩, h3,
    ⟨by decide, by decide, by decide, by decide⟩, rfl⟩

/-- Without one of the two conditions an abort may leave the directory with another name: when `b`
is put over `a`, which was taken out, and when there is no log entry left. -/
theorem not_restored_oneName :
    (¬∀ (sbi : SbInfo) (pidir n : ℕ) (own : Owner) (r u : Run), Begun pidir r →
      Stored own pidir n r.tx.mem r.tx.free → Nameable sbi pidir 48 →
      Reaches pidir (fun s _ => s.Fits) r u →
      ∃ t v, (pmfsAbortTransaction sbi u.tx.trans).exec u.tx.image = (t, .ok v) ∧
        Restored pidir r.tx.mem t.mem) ∧
    ¬∀ (sbi : SbInfo) (pidir n : ℕ) (own : Owner) (r u : Run), Begun pidir r →
      Stored own pidir n r.tx.mem r.tx.free → Nameable sbi pidir 48 →
      Reaches pidir (fun s c => s.Clear pidir c) r u →
      ∃ t v, (pmfsAbortTransaction sbi u.tx.trans).exec u.tx.image = (t, .ok v) ∧
        Restored pidir r.tx.mem t.mem := by
  have husable : Usable 4096 8192 := ⟨by decide, by decide, by decide, by decide⟩
  have hinode : Addressable ⟨4096, false⟩ 4096 maxDataPerLentry := nameable_oneName.addressable
  have hlegal : (Change.add [0x62] 640).Legal := ⟨by decide, by decide, by decide⟩
  refine ⟨fun h => ?_, fun h => ?_⟩
  · have hfits : (oneNameRun 8).Fits := by
      unfold Run.Fits
      decide
    have hfits' : Run.Fits ⟨unlinkAt 4096 0 8192 32 (some 16) (oneNameRun 8).tx, 4096,
        (oneNameRun 8).freed ∪ takenBytes (oneNameRun 8).tx.mem 4096 4096 [0x61]⟩ := by
      unfold Run.Fits
      decide
    obtain ⟨t, v, hexec, hrestored⟩ := h ⟨4096, false⟩ 4096 1 oneNameOwner (oneNameRun 8) _
      (begun_oneNameRun 8) stored_oneName nameable_oneName
      ((Relation.ReflTransGen.single ⟨.remove [0x61], trivial, hfits, .remove remove_oneName⟩).tail
        ⟨.add [0x62] 640, hlegal, hfits', .add add_removed⟩)
    have hstart : (oneNameRun 8).tx.Logs ⟨4096, false⟩ := logs_begin rfl
    have hlen : Addressable ⟨4096, false⟩ (8192 + 24) 2 :=
      addressable_page husable (by decide) (by decide)
    have hunlink : (unlinkAt 4096 0 8192 32 (some 16) (oneNameRun 8).tx).Logs ⟨4096, false⟩ :=
      (((hstart.log_of_addressable hlen).store _).log_of_addressable hinode).store _
    obtain ⟨t', v', hexec', hmem⟩ := (@logs_fillDirent _ _ 0 _ 640 16 [0x62] _
      (hunlink.log_of_addressable hinode) husable (by decide)).abort
    have ht : t = t' := congrArg Prod.fst (hexec.symm.trans hexec')
    subst ht
    rw [hmem] at hrestored
    exact not_restored_of_mem tiles_replaced (i := 640) (by decide) hrestored
  · have hclear : (oneNameRun 1).Clear 4096 (.add [0x62] 640) := fun p de _ y _ _ hin => hin
    obtain ⟨t, v, hexec, hrestored⟩ := h ⟨4096, false⟩ 4096 1 oneNameOwner (oneNameRun 1) _
      (begun_oneNameRun 1) stored_oneName nameable_oneName
      (.single ⟨.add [0x62] 640, hlegal, hclear, .add add_unlogged⟩)
    have hstart : (oneNameRun 1).tx.Logs ⟨4096, false⟩ := logs_begin rfl
    obtain ⟨t', v', hexec', hmem⟩ := (@logs_fillDirent _ _ 0 _ 640 32 [0x62] _
      (hstart.log_of_addressable hinode) husable (by decide)).abort
    have ht : t = t' := congrArg Prod.fst (hexec.symm.trans hexec')
    subst ht
    rw [hmem] at hrestored
    exact not_restored_of_mem tiles_unlogged (i := 640) (by decide) hrestored

end Wpmfs.Dir.Memory
