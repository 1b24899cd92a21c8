import Wpmfs.Dir.Memory
import Wpmfs.Dir.Shapes
import Wpmfs.Pages.Grow

/-!
# What additions and removals do to a block

The stores of one addition or removal go to one block and to the times of the inode. For each of
them it is said what becomes of the block, and what becomes of the block that an abort would leave.
-/

namespace Wpmfs.Dir.Memory

open Bytes Pages Persist Journal Pages.Tx

/-- The bytes of the times of an inode. -/
def times (pidir : ℕ) : Set ℕ := {x | pidir + 24 ≤ x ∧ x < pidir + 32}

/-- A block was changed as `f` says, with at most `n` more entries in the log. -/
structure Written (sbi : SbInfo) (pidir p n : ℕ) (f : Block → Block) (s t : Pages.Tx) : Prop where
  advances : Advances sbi (page p) n s t
  free : t.free = s.free
  frame : ∀ x, x ∉ page p → x ∉ times pidir → t.mem x = s.mem x
  block : ∀ y < blockSize, blockAt t.mem p y = f (blockAt s.mem p) y

variable {sbi : SbInfo} {pidir now p n k inode de x y : ℕ} {name : Name} {s t : Pages.Tx} {m : Mem}
  {b u u' b' : Block} {f : Block → Block} {es es₀ : List Dirent} {freed : Set ℕ}

/-! ## Stores to a block -/

theorem storeBlock_of_lt (h : x < p) : storeBlock p f m x = m x := if_neg (by omega)

@[simp] theorem blockAt_storeBlock : blockAt (storeBlock p f m) p = f (blockAt m p) := by
  funext y
  rw [blockAt, storeBlock, if_pos (Nat.le_add_right ..), Nat.add_sub_cancel_left]

theorem storeBlock_add : storeBlock p f m (p + y) = f (blockAt m p) y :=
  congrFun blockAt_storeBlock y

theorem exists_of_mem_page (h : x ∈ page p) : ∃ y < blockSize, x = p + y :=
  ⟨x - p, by obtain ⟨hle, hlt⟩ := h; unfold blockSize; omega, by have := h.1; omega⟩

theorem mem_page (h : y < blockSize) : p + y ∈ page p := by
  unfold blockSize at h
  exact ⟨by omega, by omega⟩

/-- Where the function leaves the block alone, memory stays. -/
theorem storeBlock_of_same (h : ∀ y, x = p + y → f (blockAt m p) y = blockAt m p y) :
    storeBlock p f m x = m x := by
  by_cases hx : x < p
  · exact storeBlock_of_lt hx
  · obtain ⟨y, rfl⟩ := Nat.exists_eq_add_of_le (Nat.le_of_not_lt hx)
    rw [storeBlock_add, h y rfl, blockAt]

theorem storeBlock_of_notMem (hf : ∀ y, blockSize ≤ y → f (blockAt m p) y = blockAt m p y)
    (h : x ∉ page p) : storeBlock p f m x = m x := by
  refine storeBlock_of_same fun y hy => hf y ?_
  by_contra hlt
  exact h (hy ▸ mem_page (by omega))

theorem setTimes_of_notMem (h : x ∉ times pidir) : setTimes pidir now m x = m x := by
  rw [setTimes, setICtime, writeLE_of_outside, setIMtime, writeLE_of_outside] <;>
  · by_contra hin
    exact h ⟨by omega, by omega⟩

theorem times_subset (h : x ∈ times pidir) : pidir ≤ x ∧ x < pidir + 48 := by
  obtain ⟨hle, hlt⟩ := h
  omega

theorem page_notMem_times (hp : Usable pidir p) (h : x ∈ page p) : x ∉ times pidir := by
  intro hx
  have := times_subset hx
  have := hp.apart
  obtain ⟨hle, hlt⟩ := h
  omega

theorem undone_setTimes (h : Saved sbi pidir s) :
    (s.store (setTimes pidir now)).undone sbi = s.undone sbi := by
  funext x
  refine undone_store ?_
  by_cases hx : x ∈ times pidir
  · have := times_subset hx
    exact .inl (h x this.1 this.2)
  · exact .inr (setTimes_of_notMem hx)

/-! ## An addition to a block -/

theorem blockAt_setTimes (hp : Usable pidir p) (hy : y < blockSize) :
    blockAt (setTimes pidir now m) p y = blockAt m p y :=
  setTimes_of_notMem (page_notMem_times hp (mem_page hy))

/-- What is stored after logging: the block as `f` says, and the times. -/
theorem written_of_store (hadv : Advances sbi ∅ n s t) (hmem : t.mem = s.mem)
    (hfree : t.free = s.free) (hsaved : Saved sbi pidir t) (hp : Usable pidir p)
    (hf : ∀ y, blockSize ≤ y → f (blockAt s.mem p) y = blockAt s.mem p y) :
    Written sbi pidir p n f s ((t.store (storeBlock p f)).store (setTimes pidir now)) := by
  have hout : ∀ x, x ∉ page p → storeBlock p f t.mem x = t.mem x := by
    rw [hmem]
    exact fun x hx => storeBlock_of_notMem hf hx
  have hstore : Advances sbi (page p) n s (t.store (storeBlock p f)) :=
    (hadv.mono (Set.empty_subset _) le_rfl).store fun x hx => .inr (hout x hx)
  refine ⟨hstore.store fun x hx => ?_, hfree, fun x hx htimes => ?_, fun y hy => ?_⟩
  · by_cases htimes : x ∈ times pidir
    · have := times_subset htimes
      exact .inl (hsaved x this.1 this.2)
    · exact .inr (setTimes_of_notMem htimes)
  · rw [mem_store, setTimes_of_notMem htimes, mem_store, hout x hx, hmem]
  · rw [mem_store, blockAt_setTimes hp hy, mem_store, blockAt_storeBlock, hmem]

theorem numLes_le_one {size : ℕ} (hpos : 0 < size) (hle : size ≤ 48) : numLes size leData = 1 := by
  rw [numLes_of_pos hpos]
  omega

/-- One entry that is logged in a block. -/
theorem log_in_page (h : s.Logs sbi) (hp : Usable pidir p) {i size : ℕ} (hpos : 0 < size)
    (hsize : size ≤ 48) (hle : i + size ≤ blockSize)
    (hfit : s.trans.numUsed + 1 ≤ s.trans.numEntries) :
    Recorded sbi (p + i) size s (s.log (p + i) size) ∧
    Advances sbi ∅ 1 s (s.log (p + i) size) := by
  unfold blockSize at hle
  have hone := numLes_le_one hpos hsize
  have hrec := h.log (addressable_page hp (show i < 4096 by omega) hle) (by rwa [hone])
  have hadv : Advances sbi ∅ _ s _ := hrec.advances
  rw [hone] at hadv
  exact ⟨hrec, hadv⟩

/-- `pmfs_add_dirent_to_buf` from the entry with room, under a transaction. -/
theorem fillDirent_spec (h : s.Logs sbi) (hsaved : Saved sbi pidir s) (hp : Usable pidir p)
    (htiles : Tiles (blockAt s.mem p) 0 es blockSize)
    (hfind : findRoom (blockAt s.mem p) (pmfsDirRecLen name.length) 0 = some (some de))
    (hfit : s.trans.numUsed + 1 ≤ s.trans.numEntries) :
    Written sbi pidir p 1 (fun b => insertDirent b de name inode) s
      (fillDirent true pidir now name inode p de s) ∧
    ∀ es₀ freed, Kept es₀ freed (blockAt (s.undone sbi) p) (blockAt s.mem p) → name ≠ [] →
      name.length ≤ pmfsNameLen → inode ≠ 0 → inode < 2 ^ 64 →
      (∀ y, newEntry (blockAt s.mem p) de ≤ y →
        y < newEntry (blockAt s.mem p) de + 12 + name.length → y ∉ freed) →
      Kept es₀ freed (blockAt ((fillDirent true pidir now name inode p de s).undone sbi) p)
        (blockAt (fillDirent true pidir now name inode p de s).mem p) := by
  obtain ⟨hle, hout⟩ := htiles.room_le inode hfind
  obtain ⟨t, ht, hrec, hadv, hlive, hunused⟩ : ∃ t, fillDirent true pidir now name inode p de s =
        (t.store (storeBlock p fun b => insertDirent b de name inode)).store (setTimes pidir now) ∧
      (t.mem = s.mem ∧ t.free = s.free ∧ t.undone sbi = s.undone sbi) ∧ Advances sbi ∅ 1 s t ∧
      (ino (blockAt s.mem p) de ≠ 0 → ∀ y, de + 8 ≤ y → y < de + 10 → p + y ∈ t.logged sbi) ∧
      (ino (blockAt s.mem p) de = 0 → ∀ y, de ≤ y → y < de + 8 → p + y ∈ t.logged sbi) := by
    by_cases hlive : ino (blockAt s.mem p) de = 0
    · obtain ⟨hrec, hadv⟩ := @log_in_page _ _ _ _ h hp de 8 (by omega) (by omega) (by omega) hfit
      refine ⟨s.log (p + de) 8, ?_, ⟨hrec.mem, hrec.free, hrec.undone⟩, hadv,
        fun hne => absurd hlive hne, fun _ y hy hlt => hrec.range _ (by omega) (by omega)⟩
      simp [fillDirent, hlive]
    · obtain ⟨hrec, hadv⟩ :=
        @log_in_page _ _ _ _ h hp (de + 8) 2 (by omega) (by omega) (by omega) hfit
      refine ⟨s.log (p + (de + 8)) 2, ?_, ⟨hrec.mem, hrec.free, hrec.undone⟩, hadv,
        fun _ y hy hlt => hrec.range _ (by omega) (by omega), fun heq => absurd heq hlive⟩
      simp [fillDirent, hlive]
  obtain ⟨hmem, hfree, hundone⟩ := hrec
  rw [ht]
  have hwritten := @written_of_store sbi pidir now p 1 s t (fun b => insertDirent b de name inode)
    hadv hmem hfree (hsaved.mono hadv.logged) hp hout
  refine ⟨hwritten, fun es₀ freed hkept hne hname hpos hinode hfreed => ?_⟩
  have hundo := @undone_setTimes sbi pidir now
    (t.store (storeBlock p fun b => insertDirent b de name inode)) (hsaved.mono hadv.logged)
  rw [hundo]
  have hblock := hwritten.block
  generalize hv : t.store (storeBlock p fun b => insertDirent b de name inode) = v at hblock ⊢
  have hmemv : ∀ y, v.mem (p + y) = insertDirent (blockAt s.mem p) de name inode y := by
    intro y
    rw [← hv, mem_store, storeBlock_add, hmem]
  have hsame : ∀ y, p + y ∈ t.logged sbi ∨
      insertDirent (blockAt s.mem p) de name inode y = blockAt s.mem p y →
      blockAt (v.undone sbi) p y = blockAt (s.undone sbi) p y := by
    intro y hy
    rw [blockAt, blockAt, ← hundone, ← hv]
    refine undone_store (hy.imp_right fun heq => ?_)
    rw [storeBlock_add, hmem]
    exact heq
  have hins : Kept es₀ freed (blockAt (v.undone sbi) p)
      (insertDirent (blockAt s.mem p) de name inode) := by
    refine hkept.insert hne hname hpos hinode hfind hfreed (fun y => ?_) fun hino y hle hlt hne => ?_
    · by_cases hlogged : p + y ∈ t.logged sbi
      · exact .inl (hsame y (.inl hlogged))
      · by_cases hrange : newEntry (blockAt s.mem p) de ≤ y ∧
            y < newEntry (blockAt s.mem p) de + 12 + name.length
        · have hnow : v.undone sbi (p + y) = v.mem (p + y) := by
            rw [← hv]
            exact undone_of_notMem hlogged
          exact .inr ⟨hrange.1, hrange.2, hnow.trans (hmemv y)⟩
        · refine .inl (hsame y (.inr (insertDirent_of_notMem (by omega) fun hl => ?_)))
          by_contra hin
          exact hlogged (hlive hl y (by omega) (by omega))
    · by_cases hhead : y < de + 8
      · exact hsame y (.inl (hunused hino y hle hhead))
      · exact hsame y (.inr (insertDirent_of_unused hino (by omega) hlt hne))
  exact hins.congr (fun _ _ => rfl) hblock

theorem logs_fillDirent (h : s.Logs sbi) (hp : Usable pidir p) (hle : de + 16 ≤ blockSize) :
    (fillDirent true pidir now name inode p de s).Logs sbi := by
  unfold blockSize at hle
  by_cases hino : ino (blockAt s.mem p) de = 0
  · have hlog := h.log_of_addressable
      (@addressable_page sbi pidir p de 8 hp (by omega) (by omega))
    simpa [fillDirent, hino] using (hlog.store _).store _
  · have hlog := h.log_of_addressable
      (@addressable_page sbi pidir p (de + 8) 2 hp (by omega) (by omega))
    simpa [fillDirent, hino] using (hlog.store _).store _

/-! ## A new block -/

/-- A new block with its only entry. -/
def firstDirent (name : Name) (inode : ℕ) (b : Block) : Block :=
  insertDirent (setDeLen (setIno b 0 0) 0 blockSize) 0 name inode

theorem storeBlock_storeBlock {g : Block → Block} :
    storeBlock p g (storeBlock p f m) = storeBlock p (fun b => g (f b)) m := by
  funext x
  by_cases hx : x < p
  · rw [storeBlock_of_lt hx, storeBlock_of_lt hx, storeBlock_of_lt hx]
  · obtain ⟨y, rfl⟩ := Nat.exists_eq_add_of_le (Nat.le_of_not_lt hx)
    rw [storeBlock_add, storeBlock_add, blockAt_storeBlock]

theorem firstDirent_of_le (hname : name.length ≤ pmfsNameLen) (hy : blockSize ≤ y) :
    firstDirent name inode b y = b y := by
  have hino : ino (setDeLen (setIno b 0 0) 0 blockSize) 0 = 0 := by
    rw [ino_setDeLen, ino_setIno (by omega)]
  unfold blockSize at hy
  unfold pmfsNameLen at hname
  rw [firstDirent, insertDirent, if_neg (by simpa using hino), writeDirent_of_outside (by omega),
    setDeLen_of_outside (by omega), setIno_of_outside (by omega)]

/-- The first entry of a new block, which is not logged. -/
theorem fillDirent_new (h : s.Logs sbi) (hsaved : Saved sbi pidir s) (hp : Usable pidir p)
    (hname : name.length ≤ pmfsNameLen) :
    Written sbi pidir p 0 (firstDirent name inode) s
      (fillDirent false pidir now name inode p 0
        (s.store (storeBlock p fun b => setDeLen (setIno b 0 0) 0 blockSize))) := by
  have hstore : fillDirent false pidir now name inode p 0
      (s.store (storeBlock p fun b => setDeLen (setIno b 0 0) 0 blockSize)) =
      (s.store (storeBlock p (firstDirent name inode))).store (setTimes pidir now) := by
    simp only [fillDirent, Tx.store, Bool.not_false, if_true]
    rw [storeBlock_storeBlock]
    rfl
  rw [hstore]
  exact written_of_store (.refl h) rfl rfl hsaved hp fun y hy => firstDirent_of_le hname hy

/-! ## A removal from a block -/

/-- What `pmfs_remove_entry` does once it has found the entry. -/
def unlinkAt (pidir now p res : ℕ) (prev : Option ℕ) (s : Pages.Tx) : Pages.Tx :=
  let s :=
    match prev with
    | some prev => s.log (p + (prev + 8)) 2
    | none => s.log (p + res) 8
  let s := s.store (storeBlock p fun b => unlinkDirent b res prev)
  (s.log pidir maxDataPerLentry).store (setTimes pidir now)

theorem log_inode (h : s.Logs sbi) (hpi : Nameable sbi pidir 48)
    (hfit : s.trans.numUsed + 1 ≤ s.trans.numEntries) :
    Recorded sbi pidir 48 s (s.log pidir maxDataPerLentry) ∧
    Advances sbi ∅ 1 s (s.log pidir maxDataPerLentry) ∧
    Saved sbi pidir (s.log pidir maxDataPerLentry) := by
  have hone : numLes 48 leData = 1 := numLes_le_one (by omega) le_rfl
  have hrec := h.log hpi.addressable (by rwa [hone])
  have hadv : Advances sbi ∅ _ s _ := hrec.advances
  rw [hone] at hadv
  exact ⟨hrec, hadv, fun x hle hlt => hrec.range x hle hlt⟩

/-- A removal changes bytes that are logged only. -/
theorem unlinkAt_spec {res : ℕ} {prev : Option ℕ} (h : s.Logs sbi) (hpi : Nameable sbi pidir 48)
    (hp : Usable pidir p) (htiles : Tiles (blockAt s.mem p) 0 es blockSize)
    (hfind : pmfsSearchDirblock (blockAt s.mem p) name = .found res prev)
    (hfit : s.trans.numUsed + 2 ≤ s.trans.numEntries) :
    Written sbi pidir p 2 (fun b => unlinkDirent b res prev) s (unlinkAt pidir now p res prev s) ∧
    (unlinkAt pidir now p res prev s).undone sbi = s.undone sbi := by
  obtain ⟨t, ht, hrec, hadv, hout, hlogged⟩ : ∃ t, unlinkAt pidir now p res prev s =
        (((t.store (storeBlock p fun b => unlinkDirent b res prev)).log pidir
          maxDataPerLentry).store (setTimes pidir now)) ∧
      (t.mem = s.mem ∧ t.free = s.free ∧ t.undone sbi = s.undone sbi) ∧ Advances sbi ∅ 1 s t ∧
      (∀ y, blockSize ≤ y → unlinkDirent (blockAt s.mem p) res prev y = blockAt s.mem p y) ∧
      ∀ y, p + y ∈ t.logged sbi ∨
        unlinkDirent (blockAt s.mem p) res prev y = blockAt s.mem p y := by
    rcases htiles.found_cases hfind with
      ⟨pre, q, e, post, rfl, hlive, -, rfl, rfl⟩ | ⟨e, post, rfl, hlive, -, rfl, rfl⟩
    · obtain ⟨-, -, hfits, -, hfits', htail⟩ := tiles_append.mp htiles
      have hstop := htail.stop_eq
      have hmin := hfits.minimal
      rw [pmfsDirRecLen_one] at hmin
      obtain ⟨hrec, hadv⟩ := @log_in_page _ _ _ _ h hp (span pre + 8) 2 (by omega) (by omega)
        (by omega) (by omega)
      refine ⟨_, rfl, ⟨hrec.mem, hrec.free, hrec.undone⟩, hadv,
        fun y hy => setDeLen_of_outside (by omega), fun y => ?_⟩
      by_cases hy : span pre + 8 ≤ y ∧ y < span pre + 10
      · exact .inl (hrec.range _ (by omega) (by omega))
      · exact .inr (setDeLen_of_outside (by omega))
    · obtain ⟨-, hfits, htail⟩ := htiles
      have hstop := htail.stop_eq
      have hmin := hfits.minimal
      rw [pmfsDirRecLen_one] at hmin
      obtain ⟨hrec, hadv⟩ := @log_in_page _ _ _ _ h hp 0 8 (by omega) (by omega) (by omega)
        (by omega)
      refine ⟨_, rfl, ⟨hrec.mem, hrec.free, hrec.undone⟩, hadv,
        fun y hy => setIno_of_outside (by omega), fun y => ?_⟩
      by_cases hy : y < 8
      · exact .inl (hrec.range _ (by omega) (by omega))
      · exact .inr (setIno_of_outside (by omega))
  obtain ⟨hmem, hfree, hundone⟩ := hrec
  rw [ht]
  have hkept : ∀ x, x ∉ page p →
      storeBlock p (fun b => unlinkDirent b res prev) t.mem x = t.mem x := by
    rw [hmem]
    exact fun x hx => storeBlock_of_notMem hout hx
  have hstore : Advances sbi (page p) 1 s
      (t.store (storeBlock p fun b => unlinkDirent b res prev)) :=
    (hadv.mono (Set.empty_subset _) le_rfl).store fun x hx => .inr (hkept x hx)
  have hstored : (t.store (storeBlock p fun b => unlinkDirent b res prev)).undone sbi =
      s.undone sbi := by
    rw [← hundone]
    funext x
    refine undone_store ?_
    by_cases hx : x ∈ page p
    · obtain ⟨y, hy, rfl⟩ := exists_of_mem_page hx
      rw [storeBlock_add, hmem]
      exact hlogged y
    · exact .inr (hkept x hx)
  have hblock : ∀ y < blockSize, blockAt (t.store (storeBlock p fun b => unlinkDirent b res prev)).mem
      p y = unlinkDirent (blockAt s.mem p) res prev y := by
    intro y _
    rw [mem_store, blockAt_storeBlock, hmem]
  have hframe : ∀ x, x ∉ page p →
      (t.store (storeBlock p fun b => unlinkDirent b res prev)).mem x = s.mem x := by
    intro x hx
    rw [mem_store, hkept x hx, hmem]
  have hfree' : (t.store (storeBlock p fun b => unlinkDirent b res prev)).free = s.free := hfree
  generalize t.store (storeBlock p fun b => unlinkDirent b res prev) = v at *
  obtain ⟨hused, hentries⟩ := hstore.numUsed_le
  obtain ⟨hrec, hadv', hsaved⟩ := log_inode hstore.logs hpi (by omega)
  have hall := (hstore.trans_of_le hadv' (Set.empty_subset _)).store (f := setTimes pidir now)
    fun x _ => by
      by_cases hx : x ∈ times pidir
      · have := times_subset hx
        exact .inl (hsaved x this.1 this.2)
      · exact .inr (setTimes_of_notMem hx)
  refine ⟨⟨hall, hrec.free.trans hfree', fun x hx hx' => ?_, fun y hy => ?_⟩, ?_⟩
  · rw [mem_store, setTimes_of_notMem hx', hrec.mem, hframe x hx]
  · rw [mem_store, blockAt_setTimes hp hy, hrec.mem, hblock y hy]
  · rw [undone_setTimes hsaved, hrec.undone, hstored]

end Wpmfs.Dir.Memory
