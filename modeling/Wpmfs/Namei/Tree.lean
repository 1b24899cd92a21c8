import Wpmfs.Library.Fibers
import Wpmfs.Namei.Basic

/-!
# The tree of names

What the operations on names do, without blocks: which inode each entry names, the kind and the link
counts of each inode, and what `..` of each directory says. `Names` holds after every sequence of
operations. `Counts` compares the link counts with the number of names; its slack is what a
directory has counted too much.
-/

namespace Wpmfs.Namei

open Dir Fibers

/-- A place for a name: a directory and the name in it. -/
abbrev Place := ℕ × Name

structure Tree where
  kind : ℕ → Option Kind
  links : ℕ → Links
  entry : Place → Option ℕ
  parent : ℕ → ℕ

namespace Tree

def nlink (a : Tree) (i : ℕ) : ℕ := (a.links i).iNlink

def setEntry (a : Tree) (p : Place) (v : Option ℕ) : Tree :=
  { a with entry := Function.update a.entry p v }

def modifyLinks (a : Tree) (i : ℕ) (f : Links → Links) : Tree :=
  { a with links := Function.update a.links i (f (a.links i)) }

def newInode (a : Tree) (i : ℕ) (kind : Kind) (parent : ℕ) : Tree :=
  { a with
    kind := Function.update a.kind i (some kind)
    links := Function.update a.links i ⟨1, 1⟩
    parent := Function.update a.parent i parent }

/-! ## Operations -/

/-- `create`, `mknod` and `symlink`. -/
def create (a : Tree) (p : Place) (i : ℕ) (kind : Kind) : Tree :=
  (a.newInode i kind p.1).setEntry p (some i)

def link (a : Tree) (p : Place) (i : ℕ) : Tree :=
  (a.setEntry p (some i)).modifyLinks i fun l => l.incNlink.pmfsUpdateNlink

def unlink (a : Tree) (p : Place) (i : ℕ) : Tree :=
  (a.setEntry p none).modifyLinks i Links.pmfsDecCount

def mkdir (a : Tree) (p : Place) (i : ℕ) : Tree :=
  ((((a.newInode i .dir p.1).modifyLinks i (Links.setNlink 2)).setEntry p (some i)).modifyLinks i
    Links.pmfsUpdateNlink).modifyLinks p.1 Links.pmfsIncCount

def rmdir (a : Tree) (p : Place) (i : ℕ) : Tree :=
  ((a.setEntry p none).modifyLinks i fun l => l.clearNlink.pmfsUpdateNlink).modifyLinks p.1
    Links.pmfsDecCount

/-- The entry `p` of the inode `i` moves to `q`, where an inode may have been named. -/
def move (a : Tree) (p q : Place) (i : ℕ) : Tree := (a.setEntry q (some i)).setEntry p none

def renameCounts (a : Tree) (isDir : Bool) (oldDir newDir : ℕ) : Option ℕ → Tree
  | some n => a.modifyLinks n (Links.replaced isDir)
  | none =>
    if isDir then
      (a.modifyLinks newDir Links.pmfsIncCount).modifyLinks oldDir Links.pmfsDecCount
    else a

def rename (a : Tree) (p q : Place) (i : ℕ) : Tree :=
  (a.move p q i).renameCounts (decide (a.kind i = some .dir)) p.1 q.1 (a.entry q)

def evict (a : Tree) (i : ℕ) : Tree := { a with kind := Function.update a.kind i none }

/-! ## Which names there are -/

/-- A directory that can be reached: the root, or one that an entry names. -/
def Live (a : Tree) (d : ℕ) : Prop :=
  a.kind d = some .dir ∧ (d = pmfsRootIno ∨ ∃ p, a.entry p = some d)

structure Names (a : Tree) : Prop where
  root : a.kind pmfsRootIno = some .dir
  holder : ∀ p i, a.entry p = some i → a.Live p.1
  target : ∀ p i, a.entry p = some i → a.kind i ≠ none ∧ i ≠ pmfsRootIno
  once : ∀ p q i, a.kind i = some .dir → a.entry p = some i → a.entry q = some i → p = q

section Names

variable {a : Tree} {p q : Place} {i d : ℕ} {k : Kind} {f : Links → Links} {v : Option ℕ}

@[simp] theorem setEntry_kind : (a.setEntry p v).kind = a.kind := rfl

@[simp] theorem setEntry_entry : (a.setEntry p v).entry = Function.update a.entry p v := rfl

@[simp] theorem modifyLinks_kind : (a.modifyLinks i f).kind = a.kind := rfl

@[simp] theorem modifyLinks_entry : (a.modifyLinks i f).entry = a.entry := rfl

@[simp] theorem setEntry_links : (a.setEntry p v).links = a.links := rfl

@[simp] theorem setEntry_parent : (a.setEntry p v).parent = a.parent := rfl

@[simp] theorem modifyLinks_links :
    (a.modifyLinks i f).links = Function.update a.links i (f (a.links i)) := rfl

@[simp] theorem modifyLinks_parent : (a.modifyLinks i f).parent = a.parent := rfl

@[simp] theorem newInode_kind :
    (a.newInode i k d).kind = Function.update a.kind i (some k) := rfl

@[simp] theorem newInode_entry : (a.newInode i k d).entry = a.entry := rfl

@[simp] theorem newInode_links :
    (a.newInode i k d).links = Function.update a.links i ⟨1, 1⟩ := rfl

@[simp] theorem newInode_parent :
    (a.newInode i k d).parent = Function.update a.parent i d := rfl

/-! ## Which directories can be reached -/

theorem live_modifyLinks : (a.modifyLinks i f).Live d ↔ a.Live d := Iff.rfl

/-- A directory stays within reach when an entry that does not name it changes. -/
theorem live_of_ne (hd : a.Live d) (hne : a.entry p ≠ some d) : (a.setEntry p v).Live d := by
  obtain ⟨hkind, hroot | ⟨q, hq⟩⟩ := hd
  · exact ⟨hkind, .inl hroot⟩
  · refine ⟨hkind, .inr ⟨q, ?_⟩⟩
    have hqp : q ≠ p := fun hqp => hne (hqp ▸ hq)
    rwa [setEntry_entry, Function.update_of_ne hqp]

theorem live_bind_iff (hp : a.entry p = none) :
    (a.setEntry p (some i)).Live d ↔ a.Live d ∨ d = i ∧ a.kind i = some .dir := by
  constructor
  · rintro ⟨hkind, hroot | ⟨q, hq⟩⟩
    · exact .inl ⟨hkind, .inl hroot⟩
    · rw [setEntry_entry, Function.update_apply] at hq
      split at hq
      · cases hq
        exact .inr ⟨rfl, hkind⟩
      · exact .inl ⟨hkind, .inr ⟨q, hq⟩⟩
  · rintro (hd | ⟨rfl, hkind⟩)
    · exact live_of_ne hd (by simp [hp])
    · exact ⟨hkind, .inr ⟨p, Function.update_self ..⟩⟩

theorem live_unbind_iff (h : a.Names) (hp : a.entry p = some i) :
    (a.setEntry p none).Live d ↔ a.Live d ∧ d ≠ i := by
  constructor
  · rintro ⟨hkind, hroot | ⟨q, hq⟩⟩
    · exact ⟨⟨hkind, .inl hroot⟩, fun hdi => (h.target p i hp).2 (hdi ▸ hroot)⟩
    · rw [setEntry_entry, Function.update_apply] at hq
      split at hq
      · cases hq
      · rename_i hqp
        refine ⟨⟨hkind, .inr ⟨q, hq⟩⟩, ?_⟩
        rintro rfl
        exact hqp (h.once q p d hkind hq hp)
  · rintro ⟨hd, hne⟩
    exact live_of_ne hd (by simpa [hp] using hne.symm)

@[simp] theorem move_entry {r : Place} : (a.move p q i).entry r =
    if r = p then none else if r = q then some i else a.entry r := by
  simp only [Tree.move, setEntry_entry, Function.update_apply]

theorem live_move_iff (h : a.Names) (hpq : p ≠ q) (hp : a.entry p = some i)
    (hq : a.entry q ≠ some i) : (a.move p q i).Live d ↔ a.Live d ∧ a.entry q ≠ some d := by
  constructor
  · rintro ⟨hkind, hroot | ⟨r, hr⟩⟩
    · exact ⟨⟨hkind, .inl hroot⟩, fun hqd => (h.target q d hqd).2 hroot⟩
    · rw [move_entry] at hr
      split at hr
      · cases hr
      split at hr
      · cases hr
        exact ⟨⟨hkind, .inr ⟨p, hp⟩⟩, hq⟩
      · exact ⟨⟨hkind, .inr ⟨r, hr⟩⟩, fun hqd => ‹¬r = q› (h.once r q d hkind hr hqd)⟩
  · rintro ⟨⟨hkind, hroot | ⟨r, hr⟩⟩, hqd⟩
    · exact ⟨hkind, .inl hroot⟩
    · have hrq : r ≠ q := fun hrq => hqd (hrq ▸ hr)
      by_cases hrp : r = p
      · obtain rfl : i = d := by simpa [← hrp, hr] using hp.symm
        exact ⟨hkind, .inr ⟨q, by rw [move_entry, if_neg hpq.symm, if_pos rfl]⟩⟩
      · exact ⟨hkind, .inr ⟨r, by rw [move_entry, if_neg hrp, if_neg hrq, hr]⟩⟩

theorem live_newInode_iff (h : a.Names) (hi : a.kind i = none) :
    (a.newInode i k p.1).Live d ↔ a.Live d := by
  rw [Live, Live, newInode_kind, newInode_entry]
  by_cases hdi : d = i
  · subst hdi
    have hno : ¬(d = pmfsRootIno ∨ ∃ p, a.entry p = some d) := by
      rintro (rfl | ⟨p, hp⟩)
      · simp [h.root] at hi
      · exact (h.target p d hp).1 hi
    tauto
  · rw [Function.update_of_ne hdi]

theorem renameCounts_kind {isDir : Bool} {old new : ℕ} {n : Option ℕ} :
    (a.renameCounts isDir old new n).kind = a.kind := by
  cases n <;> cases isDir <;> rfl

theorem renameCounts_entry {isDir : Bool} {old new : ℕ} {n : Option ℕ} :
    (a.renameCounts isDir old new n).entry = a.entry := by
  cases n <;> cases isDir <;> rfl

theorem renameCounts_parent {isDir : Bool} {old new : ℕ} {n : Option ℕ} :
    (a.renameCounts isDir old new n).parent = a.parent := by
  cases n <;> cases isDir <;> rfl

theorem live_renameCounts {isDir : Bool} {old new : ℕ} {n : Option ℕ} :
    (a.renameCounts isDir old new n).Live d ↔ a.Live d := by
  rw [Live, Live, renameCounts_kind, renameCounts_entry]

/-! ## What keeps the names in order -/

theorem Names.modifyLinks (h : a.Names) : (a.modifyLinks i f).Names :=
  ⟨h.root, h.holder, h.target, h.once⟩

theorem Names.renameCounts (h : a.Names) {isDir : Bool} {oldDir newDir : ℕ} {n : Option ℕ} :
    (a.renameCounts isDir oldDir newDir n).Names := by
  cases n with
  | some n => exact h.modifyLinks
  | none =>
    rw [Tree.renameCounts]
    split
    · exact h.modifyLinks.modifyLinks
    · exact h

theorem Names.newInode (h : a.Names) (hi : a.kind i = none) : (a.newInode i k p.1).Names := by
  have hkind : ∀ {j}, a.kind j ≠ none → (a.newInode i k p.1).kind j = a.kind j := by
    intro j hj
    have hji : j ≠ i := fun hji => hj (hji ▸ hi)
    exact Function.update_of_ne hji ..
  refine ⟨?_, fun q j hq => ?_, fun q j hq => ?_, fun q r j hj hq hr => ?_⟩
  · rw [hkind (by simp [h.root]), h.root]
  · exact (live_newInode_iff h hi).mpr (h.holder q j hq)
  · rw [hkind (h.target q j hq).1]
    exact h.target q j hq
  · rw [hkind (h.target q j hq).1] at hj
    exact h.once q r j hj hq hr

/-- A name is added. -/
theorem Names.bind (h : a.Names) (hlive : a.Live p.1) (hfree : a.entry p = none)
    (hkind : a.kind i ≠ none) (hroot : i ≠ pmfsRootIno)
    (hnew : a.kind i = some .dir → ∀ q, a.entry q ≠ some i) : (a.setEntry p (some i)).Names := by
  refine ⟨h.root, fun q j hq => ?_, fun q j hq => ?_, fun q r j hj hq hr => ?_⟩
  all_goals rw [setEntry_entry, Function.update_apply] at hq
  · refine (live_bind_iff hfree).mpr (.inl ?_)
    split at hq
    · rwa [‹q = p›]
    · exact h.holder q j hq
  · split at hq
    · cases hq
      exact ⟨hkind, hroot⟩
    · exact h.target q j hq
  · rw [setEntry_entry, Function.update_apply] at hr
    rw [setEntry_kind] at hj
    split at hq <;> split at hr
    · simp_all
    · cases hq
      exact absurd hr (hnew hj r)
    · cases hr
      exact absurd hq (hnew hj q)
    · exact h.once q r j hj hq hr

/-- The inode that an entry names holds no entries when it is a directory. -/
def Vacant (a : Tree) (i : ℕ) : Prop := a.kind i = some .dir → ∀ n, a.entry (i, n) = none

theorem Names.ne_vacant (h : a.Names) (hi : a.Vacant i) (hp : a.entry p ≠ none) : p.1 ≠ i := by
  rintro rfl
  obtain ⟨j, hj⟩ := Option.ne_none_iff_exists'.mp hp
  exact hp (hi (h.holder p j hj).1 p.2)

/-- A name is taken away. -/
theorem Names.unbind (h : a.Names) (hp : a.entry p = some i) (hi : a.Vacant i) :
    (a.setEntry p none).Names := by
  have hold : ∀ {q j}, (a.setEntry p none).entry q = some j → a.entry q = some j := by
    intro q j hq
    rw [setEntry_entry, Function.update_apply] at hq
    split at hq
    · cases hq
    · exact hq
  refine ⟨h.root, fun q j hq => ?_, fun q j hq => h.target q j (hold hq),
    fun q r j hj hq hr => h.once q r j hj (hold hq) (hold hr)⟩
  have hne := h.ne_vacant (p := q) hi (by simp [hold hq])
  exact (live_unbind_iff h hp).mpr ⟨h.holder q j (hold hq), hne⟩

/-- A name is moved, maybe over another one. -/
theorem Names.move (h : a.Names) (hpq : p ≠ q) (hp : a.entry p = some i) (hq : a.Live q.1)
    (hn : ∀ n, a.entry q = some n → n ≠ i ∧ a.Vacant n) : (a.move p q i).Names := by
  have hqi : a.entry q ≠ some i := fun hqi => (hn i hqi).1 rfl
  have hlive : ∀ {r : Place}, a.Live r.1 → (a.entry q ≠ none → a.entry r ≠ none) →
      (a.move p q i).Live r.1 := by
    intro r hr hsome
    refine (live_move_iff h hpq hp hqi).mpr ⟨hr, fun hqr => ?_⟩
    exact h.ne_vacant (hn _ hqr).2 (hsome (by simp [hqr])) rfl
  refine ⟨h.root, fun r j hr => ?_, fun r j hr => ?_, fun r t j hj hr ht => ?_⟩
  all_goals rw [move_entry] at hr
  · split at hr
    · cases hr
    split at hr
    · rename_i hrq
      exact hlive (hrq ▸ hq) (by simp [hrq])
    · exact hlive (h.holder r j hr) (by simp [hr])
  · split at hr
    · cases hr
    split at hr
    · cases hr
      exact h.target p i hp
    · exact h.target r j hr
  · rw [move_entry] at ht
    split at hr
    · cases hr
    split at ht
    · cases ht
    split at hr <;> split at ht
    · simp_all
    · cases hr
      exact absurd (h.once t p i hj ht hp) ‹_›
    · cases ht
      exact absurd (h.once r p i hj hr hp) ‹_›
    · exact h.once r t j hj hr ht

theorem Names.evict (h : a.Names) (hi : ∀ p, a.entry p ≠ some i) (hroot : i ≠ pmfsRootIno) :
    (a.evict i).Names := by
  have hkind : ∀ j, j ≠ i → (a.evict i).kind j = a.kind j :=
    fun j hj => Function.update_of_ne hj ..
  have hne : ∀ p j, a.entry p = some j → j ≠ i := fun p j hp hji => hi p (hji ▸ hp)
  refine ⟨?_, fun p j hp => ?_, fun p j hp => ?_, fun p q j hj hp hq => ?_⟩
  · rw [hkind _ hroot.symm, h.root]
  · obtain ⟨hd, hd'⟩ := h.holder p j hp
    have hpi : p.1 ≠ i := by
      rintro rfl
      rcases hd' with hd' | ⟨q, hq⟩
      · exact hroot hd'
      · exact hi q hq
    exact ⟨by rw [hkind _ hpi, hd], hd'⟩
  · rw [hkind j (hne p j hp)]
    exact h.target p j hp
  · rw [hkind j (hne p j hp)] at hj
    exact h.once p q j hj hp hq

end Names

end Tree

end Wpmfs.Namei
