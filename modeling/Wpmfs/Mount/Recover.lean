import Wpmfs.File.Mounting
import Wpmfs.Library.Chain
import Wpmfs.Volume.Basic

/-!
# Recovery of the truncate list

`pmfs_recover_truncate_list` walks the list that a failure has left and finishes with the inodes on
it: one that has links is cut to its `i_truncatesize`, one that has none is evicted. `pmfs_iget`
refuses a slot that is free already. There the walk ends, and the head is reset all the same.

A slot is free before its inode leaves the list, so a free slot may be anywhere on it. Left out are
the bytes of blocks and the times. None of the inodes is in memory before.
-/

namespace Wpmfs.Mount

open File
open Wpmfs.Volume (kindOf)

/-- An inode of the table, with what recovery reads and changes of it. -/
structure TableInode where
  iLinksCount : ℕ
  iDtime : ℕ
  append : Bool
  immutable : Bool
  file : File
  iNextTruncate : ℕ
  iTruncatesize : ℕ

/-- What recovery depends on: if there is memory for an inode, if a transaction begins, and the
time. -/
structure Support where
  iget : ℕ → Bool
  newTransaction : ℕ → Bool
  seconds : ℕ

namespace TableInode

/-- The test of `pmfs_read_inode` for a deleted inode. -/
def IsFree (pi : TableInode) : Prop := pi.iLinksCount = 0 ∧ (pi.file.iMode = 0 ∨ pi.iDtime ≠ 0)

instance (pi : TableInode) : Decidable pi.IsFree := inferInstanceAs (Decidable (_ ∧ _))

/-- `pmfs_setsize` to the recorded size, and `pmfs_update_isize`. An inode that is no file,
directory or link has no size in memory, and `pmfs_setsize` leaves it alone. -/
def setsize (pi : TableInode) : Option (List (ℕ × ℕ) × TableInode) :=
  if kindOf pi.file.iMode = .special then some ([], { pi with file.iSize := 0 })
  else
    (pmfsTruncateBlocks true { pi.file with iSize := pi.iTruncatesize } pi.iTruncatesize
      pi.file.iSize).map fun (out, f) => (out, { pi with file := f })

/-- `pmfs_evict_inode` of the inode `ino`, which has no links. `pmfs_free_inode` fails where there
is no transaction. -/
def evict (u : Support) (ino : ℕ) (pi : TableInode) : Option (List (ℕ × ℕ) × TableInode) :=
  if kindOf pi.file.iMode = .special ∨ pi.append = true ∨ pi.immutable = true then some ([], pi)
  else if u.newTransaction ino = false then some ([], pi)
  else
    (freeInodeSubtree pi.file.evictLastBlocknr pi.file.height pi.file.root).map fun out =>
      (out, { pi with iDtime := u.seconds, file.root := .null, file.iSize := 0 })

/-- What is done to one inode, with what is given to the allocator, the latest first. -/
def recover (u : Support) (ino : ℕ) (pi : TableInode) : Option (List (ℕ × ℕ) × TableInode) :=
  if pi.iLinksCount ≠ 0 then pi.setsize else pi.evict u ino

/-- An inode as a failure may leave it on the list. -/
structure Sane (pi : TableInode) : Prop where
  file : kindOf pi.file.iMode ≠ .special → pi.file.Sane
  special : kindOf pi.file.iMode = .special → pi.file.root = .null ∧ pi.iTruncatesize = 0

/-- Recovery is able to do with the inode what it has to. -/
def Able (u : Support) (ino : ℕ) (pi : TableInode) : Prop :=
  pi.iLinksCount = 0 → kindOf pi.file.iMode ≠ .special ∧ pi.append = false ∧
    pi.immutable = false ∧ u.newTransaction ino = true

/-- `pi` is finished with as `pi'`: without links its slot is free, and no block is reached from it;
with links it has the recorded size and no blocks past that. -/
structure Finished (pi pi' : TableInode) : Prop where
  freed : pi.iLinksCount = 0 → pi'.IsFree ∧ pi'.file.root.isNull = true
  cut : pi.iLinksCount ≠ 0 → pi'.file.iSize = pi.iTruncatesize ∧
    (∀ k, truncateFirst pi.iTruncatesize ≤ k → File.pmfsFindDataBlock pi'.file k = none) ∧
    ∀ k, k < truncateFirst pi.iTruncatesize →
      File.pmfsFindDataBlock pi'.file k = File.pmfsFindDataBlock pi.file k

end TableInode

/-- The inode table and the head of the list. -/
structure Image where
  inodes : ℕ → TableInode
  head : ℕ

namespace Image

/-- The loop of `pmfs_recover_truncate_list`, over at most `n` inodes from `inoNext` on. `none` is a
`BUG_ON`, or that the loop goes on. -/
def recoverLoop (u : Support) : (n inoNext : ℕ) → Image → Option (List (ℕ × ℕ) × Image)
  | 0, inoNext, s => if inoNext = 0 then some ([], s) else none
  | n + 1, inoNext, s =>
    if inoNext = 0 then some ([], s)
    -- `pmfs_iget` fails
    else if u.iget inoNext = false ∨ (s.inodes inoNext).IsFree then some ([], s)
    else
      match (s.inodes inoNext).recover u inoNext with
      | none => none
      | some (out, pi) =>
        (recoverLoop u n pi.iNextTruncate
          { s with inodes := Function.update s.inodes inoNext pi }).map fun (later, s) =>
            (later ++ out, s)

/-- `pmfs_recover_truncate_list`. -/
def pmfsRecoverTruncateList (u : Support) (n : ℕ) (s : Image) :
    Option (List (ℕ × ℕ) × Image) :=
  (recoverLoop u n s.head s).map fun (out, s) => (out, { s with head := 0 })

def next (s : Image) (i : ℕ) : ℕ := (s.inodes i).iNextTruncate

/-- The blocks and pages of the trees of some inodes, with their levels. -/
def blocks (s : Image) (l : List ℕ) : Multiset (ℕ × ℕ) :=
  (l.map fun i => (s.inodes i).file.root.entries).sum

/-- The inodes that the walk along the list comes to. -/
def reached (u : Support) (s : Image) (l : List ℕ) : List ℕ :=
  l.takeWhile fun i => u.iget i && !decide (s.inodes i).IsFree

end Image

variable {u : Support} {pi pi' : TableInode} {s s' : Image} {i a : ℕ} {l : List ℕ}
  {out : List (ℕ × ℕ)}

/-! ## One inode -/

namespace TableInode

/-- What recovery does to one inode. -/
structure Recovered (u : Support) (ino : ℕ) (pi : TableInode) (out : List (ℕ × ℕ))
    (pi' : TableInode) : Prop where
  next : pi'.iNextTruncate = pi.iNextTruncate
  entries : (out : Multiset (ℕ × ℕ)) + pi'.file.root.entries = pi.file.root.entries
  finished : Finished pi pi' ↔ Able u ino pi ∨ Finished pi pi
  free : pi'.IsFree → pi.IsFree ∨ pi'.file.root = .null

theorem pmfsFindDataBlock_of_null {f : File} (hf : f.root = .null) (k : ℕ) :
    File.pmfsFindDataBlock f k = none := by
  rw [File.pmfsFindDataBlock_eq, ptr, treePtr]
  dsimp only
  rw [hf, Slot.ptr_null, ite_self]

theorem Sane.setsize (hpi : pi.Sane) (hlinks : pi.iLinksCount ≠ 0) : ∃ out pi',
    pi.setsize = some (out, pi') ∧ Recovered u i pi out pi' := by
  have hable : Able u i pi := fun h => absurd h hlinks
  rw [TableInode.setsize]
  by_cases hkind : kindOf pi.file.iMode = .special
  · obtain ⟨hnull, hsize⟩ := hpi.special hkind
    rw [if_pos hkind]
    refine ⟨_, _, rfl, rfl, zero_add _, ⟨fun _ => .inl hable, fun _ => ⟨?_, fun _ => ⟨?_, ?_, ?_⟩⟩⟩,
      fun h => absurd h.1 hlinks⟩
    · exact fun h => absurd h hlinks
    · exact hsize.symm
    · exact fun k _ => pmfsFindDataBlock_of_null hnull k
    · exact fun k _ => rfl
  · obtain ⟨out, f, hrun, hcut⟩ := (hpi.file hkind).pmfsTruncateBlocks_cutTo (n := pi.iTruncatesize)
    rw [if_neg hkind, hrun]
    refine ⟨_, _, rfl, rfl, hcut.entries, ⟨fun _ => .inl hable, fun _ => ⟨?_, fun _ => ?_⟩⟩,
      fun h => absurd h.1 hlinks⟩
    · exact fun h => absurd h hlinks
    · exact ⟨hcut.size, hcut.gone, hcut.below⟩

theorem Sane.evict (hpi : pi.Sane) (hlinks : pi.iLinksCount = 0) (hseconds : u.seconds ≠ 0) :
    ∃ out pi', pi.evict u i = some (out, pi') ∧ Recovered u i pi out pi' := by
  have hkept : ¬Able u i pi → Recovered u i pi [] pi := fun hable =>
    ⟨rfl, zero_add _, ⟨.inr, fun h => h.resolve_left hable⟩, .inl⟩
  rw [TableInode.evict]
  by_cases hrefuse : kindOf pi.file.iMode = .special ∨ pi.append = true ∨ pi.immutable = true
  · rw [if_pos hrefuse]
    refine ⟨_, _, rfl, hkept fun hable => ?_⟩
    obtain ⟨hkind, happend, himmutable, -⟩ := hable hlinks
    simp [hkind, happend, himmutable] at hrefuse
  · obtain ⟨hkind, happend, himmutable⟩ : kindOf pi.file.iMode ≠ .special ∧
        pi.append = false ∧ pi.immutable = false := by
      simpa using hrefuse
    rw [if_neg hrefuse]
    by_cases htrans : u.newTransaction i = false
    · rw [if_pos htrans]
      refine ⟨_, _, rfl, hkept fun hable => ?_⟩
      have := (hable hlinks).2.2.2
      rw [htrans] at this
      cases this
    · obtain ⟨out, hrun, hentries⟩ := (hpi.file hkind).freeInodeSubtree
      have hable : Able u i pi := fun _ => ⟨hkind, happend, himmutable, by simpa using htrans⟩
      rw [if_neg htrans, hrun]
      refine ⟨_, _, rfl, rfl, ?_, ⟨fun _ => .inl hable, fun _ => ⟨fun _ => ?_, ?_⟩⟩,
        fun _ => .inr rfl⟩
      · rw [Slot.entries_null, add_zero, hentries]
      · exact ⟨⟨hlinks, .inr hseconds⟩, rfl⟩
      · exact fun h => absurd hlinks h

theorem Sane.recover (hpi : pi.Sane) (hseconds : u.seconds ≠ 0) :
    ∃ out pi', pi.recover u i = some (out, pi') ∧ Recovered u i pi out pi' := by
  rw [TableInode.recover]
  by_cases hlinks : pi.iLinksCount = 0
  · rw [if_neg (not_not.mpr hlinks)]
    exact hpi.evict hlinks hseconds
  · rw [if_pos hlinks]
    exact hpi.setsize hlinks

end TableInode

/-! ## The list -/

namespace Image

theorem reached_subset (hi : i ∈ reached u s l) : i ∈ l := (List.takeWhile_sublist _).subset hi

theorem reached_congr (hsame : ∀ i ∈ l, s'.inodes i = s.inodes i) :
    reached u s' l = reached u s l := by
  induction l with
  | nil => rfl
  | cons i l ih =>
    have hi := hsame i (List.mem_cons_self ..)
    rw [reached, reached, List.takeWhile_cons, List.takeWhile_cons, hi]
    split
    · exact congrArg (i :: ·) (ih fun j hj => hsame j (List.mem_cons_of_mem _ hj))
    · rfl

theorem blocks_congr (hsame : ∀ i ∈ l, s'.inodes i = s.inodes i) : blocks s' l = blocks s l :=
  congrArg List.sum (List.map_congr_left fun i hi => by rw [hsame i hi])

/-- What the walk along a list does. -/
structure Walked (u : Support) (s : Image) (l : List ℕ) (out : List (ℕ × ℕ)) (s' : Image) :
    Prop where
  head : s'.head = s.head
  others : ∀ i, i ∉ reached u s l → s'.inodes i = s.inodes i
  entries : (out : Multiset (ℕ × ℕ)) + blocks s' (reached u s l) = blocks s (reached u s l)
  finished : ∀ i ∈ reached u s l, (s.inodes i).Finished (s'.inodes i) ↔
    (s.inodes i).Able u i ∨ (s.inodes i).Finished (s.inodes i)
  free : ∀ i ∈ reached u s l, (s'.inodes i).IsFree → (s'.inodes i).file.root = .null

theorem recoverLoop_walked (hlist : Linked s.next 0 a l)
    (hsane : ∀ i ∈ l, ¬(s.inodes i).IsFree → (s.inodes i).Sane) (hseconds : u.seconds ≠ 0) :
    ∃ out s', recoverLoop u l.length a s = some (out, s') ∧ Walked u s l out s' := by
  induction l generalizing a s with
  | nil =>
    refine ⟨[], s, if_pos hlist, rfl, fun _ _ => rfl, zero_add _, ?_, ?_⟩
    all_goals exact fun i hi => absurd hi List.not_mem_nil
  | cons i l ih =>
    have hnodup := hlist.nodup
    obtain ⟨rfl, hne, hlist⟩ := hlist
    have hout : a ∉ l := (List.nodup_cons.mp hnodup).1
    rw [List.length_cons, recoverLoop, if_neg hne]
    by_cases hstop : u.iget a = false ∨ (s.inodes a).IsFree
    · have hnil : reached u s (a :: l) = [] := by
        rw [reached, List.takeWhile_cons_of_neg]
        rcases hstop with hstop | hstop <;> simp [hstop]
      rw [if_pos hstop]
      refine ⟨[], s, rfl, rfl, fun _ _ => rfl, zero_add _, ?_, ?_⟩
      all_goals
        rw [hnil]
        exact fun i hi => absurd hi List.not_mem_nil
    · rw [not_or] at hstop
      obtain ⟨out, pi, hrun, hrec⟩ :=
        (hsane a (List.mem_cons_self ..) hstop.2).recover (u := u) (i := a) hseconds
      rw [if_neg (by rwa [not_or]), hrun]
      dsimp only
      generalize hs₁ : ({ s with inodes := Function.update s.inodes a pi } : Image) = s₁
      have hsame : ∀ j, j ≠ a → s₁.inodes j = s.inodes j := by
        intro j hj
        rw [← hs₁]
        exact Function.update_of_ne hj ..
      have hself : s₁.inodes a = pi := by
        rw [← hs₁]
        exact Function.update_self ..
      have hother : ∀ j ∈ l, s₁.inodes j = s.inodes j := fun j hj =>
        hsame j (ne_of_mem_of_not_mem hj hout)
      have hlist₁ : Linked s₁.next 0 (s.next a) l := hlist.congr fun j hj => by
        rw [next, next, hother j hj]
      obtain ⟨later, s', hloop, hwalk⟩ := ih hlist₁ (fun j hj hfree => by
        rw [hother j hj] at hfree ⊢
        exact hsane j (List.mem_cons_of_mem _ hj) hfree)
      have hrest : reached u s₁ l = reached u s l := reached_congr hother
      have hreached : reached u s (a :: l) = a :: reached u s l := by
        rw [reached, List.takeWhile_cons_of_pos]
        · rfl
        · simpa using hstop
      have hfirst : s'.inodes a = pi := by
        rw [hwalk.others a fun h => hout (reached_subset h), hself]
      rw [hrec.next]
      change ∃ out' s', (recoverLoop u l.length (s.next a) s₁).map _ = some (out', s') ∧ _
      rw [hloop]
      obtain ⟨hhead, hothers, hentries, hfinished, hempty⟩ := hwalk
      rw [hrest] at hothers hentries hfinished hempty
      refine ⟨later ++ out, s', rfl, ?_, fun j hj => ?_, ?_, fun j hj => ?_, fun j hj hfree => ?_⟩
      · rw [hhead, ← hs₁]
      · rw [hreached, List.mem_cons, not_or] at hj
        rw [hothers j hj.2, hsame j hj.1]
      · have hold : blocks s₁ (reached u s l) = blocks s (reached u s l) :=
          blocks_congr fun j hj => hother j (reached_subset hj)
        rw [hold] at hentries
        rw [hreached, blocks, blocks, List.map_cons, List.map_cons, List.sum_cons, List.sum_cons,
          hfirst, ← hrec.entries, ← Multiset.coe_add]
        change _ + (_ + blocks s' _) = _ + blocks s _
        rw [← hentries, add_comm (later : Multiset (ℕ × ℕ)), add_add_add_comm]
      · rw [hreached, List.mem_cons] at hj
        rcases hj with rfl | hj
        · rw [hfirst]
          exact hrec.finished
        · have hne := ne_of_mem_of_not_mem (reached_subset hj) hout
          have := hfinished j hj
          rwa [hsame j hne] at this
      · rw [hreached, List.mem_cons] at hj
        rcases hj with rfl | hj
        · rw [hfirst] at hfree ⊢
          exact (hrec.free hfree).resolve_left hstop.2
        · exact hempty j hj hfree

/-- The inode 384 was freed and is still on the list, before the inode 512, which has lost its name
and owns the block 7. -/
def dropping : Image where
  inodes i :=
    if i = 384 then ⟨0, 5, false, false, ⟨0, .null, 0, 0, false, 0x8000⟩, 512, 0⟩
    else ⟨0, 0, false, false, ⟨0, .data 7, 1, 1, false, 0x8000⟩, 0, 0⟩
  head := 384

theorem sane_byte : File.Sane ⟨0, .data 7, 1, 1, false, 0x8000⟩ := by
  have hlt : ∀ {l k : ℕ}, File.ptr ⟨0, .data 7, 1, 1, false, 0x8000⟩ l k ≠ none → k = 0 :=
    fun hptr => by simpa using lt_of_ptr hptr
  refine ⟨⟨by decide, fun _ => rfl, by decide, by decide⟩, fun _ k hptr => ?_,
    fun l k hk hptr => ?_⟩
  · rw [hlt hptr]
    decide
  · obtain rfl : k = 0 := by simpa using hk
    obtain rfl : l = 0 := by simpa using Slot.le_of_ptr hptr
    exact ⟨0, hk, rfl, hptr⟩

end Image

end Wpmfs.Mount
