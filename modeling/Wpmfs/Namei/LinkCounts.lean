import Wpmfs.Namei.Tree

/-!
# Link counts of the tree

The count of an inode that is not a directory is the number of its names, that of a directory is 2
and the number of its subdirectories and its slack. Only a directory that is moved over another one
leaves slack behind: its old parent keeps counting it.
-/

namespace Wpmfs.Namei

open Dir Fibers

/-! ## Counts of one inode -/

/-- The two counts agree and are in range. -/
structure Links.Ok (l : Links) : Prop where
  bound : l.iNlink ≤ pmfsLinkMax
  synced : l.iLinksCount = l.iNlink

section Links

variable {l : Links}

theorem Links.ok_update (h : l.iNlink ≤ pmfsLinkMax) : l.pmfsUpdateNlink.Ok := by
  unfold pmfsLinkMax at h
  exact ⟨h, Nat.mod_eq_of_lt (show l.iNlink < 2 ^ 16 by omega)⟩

theorem Links.Ok.inc (h : l.iNlink < pmfsLinkMax) : l.pmfsIncCount.Ok := ok_update h

theorem Links.Ok.dec (h : l.Ok) : l.pmfsDecCount.Ok := by
  rw [pmfsDecCount]
  split
  · exact ok_update ((Nat.sub_le ..).trans h.bound)
  · exact h

theorem Links.Ok.clear : l.clearNlink.pmfsUpdateNlink.Ok := ok_update (Nat.zero_le _)

@[simp] theorem Links.iNlink_inc : l.pmfsIncCount.iNlink = l.iNlink + 1 := rfl

@[simp] theorem Links.iNlink_dec : l.pmfsDecCount.iNlink = l.iNlink - 1 := by
  rw [pmfsDecCount]
  split
  · rfl
  · omega

theorem Links.iNlink_replaced {isDir : Bool} :
    (l.replaced isDir).iNlink = l.iNlink - if isDir then 2 else 1 := by
  simp only [replaced, pmfsUpdateNlink, dropNlink]
  split_ifs <;> simp_all <;> omega

theorem Links.Ok.replaced (h : l.Ok) {isDir : Bool} : (l.replaced isDir).Ok := by
  have hle : (l.replaced isDir).iNlink ≤ l.iNlink := by
    rw [iNlink_replaced]
    exact Nat.sub_le ..
  exact ok_update (hle.trans h.bound)

end Links

namespace Tree

variable {a : Tree} {p q : Place} {i d : ℕ} {k : Kind} {f : Links → Links} {v : Option ℕ}
  {slack : ℕ → ℕ}

/-- The directory for which a name of the inode `v` at the place counts. -/
def dirOf (a : Tree) (p : Place) (v : Option ℕ) : Option ℕ :=
  v.bind fun i => if a.kind i = some .dir then some p.1 else none

/-- The directory in which a place names a subdirectory. -/
def subdirs (a : Tree) (p : Place) : Option ℕ := a.dirOf p (a.entry p)

/-- The number of names of an inode. -/
noncomputable def names (a : Tree) (i : ℕ) : ℕ := (fiber a.entry i).ncard

/-- The number of subdirectories of a directory. -/
noncomputable def subs (a : Tree) (d : ℕ) : ℕ := (fiber a.subdirs d).ncard

structure Counts (a : Tree) (slack : ℕ → ℕ) : Prop where
  finite : (dom a.entry).Finite
  file : ∀ i k, a.kind i = some k → k ≠ .dir → a.nlink i = a.names i
  live : ∀ d, a.Live d → a.nlink d = 2 + a.subs d + slack d
  dead : ∀ d, a.kind d = some .dir → ¬a.Live d → a.nlink d ≤ slack d
  ok : ∀ i, a.kind i ≠ none → (a.links i).Ok

/-! ## What an entry counts -/

@[simp] theorem dirOf_none : a.dirOf p none = none := rfl

theorem dirOf_some : a.dirOf p (some i) = if a.kind i = some .dir then some p.1 else none := rfl

theorem subdirs_eq_some : a.subdirs p = some d ↔
    p.1 = d ∧ ∃ i, a.entry p = some i ∧ a.kind i = some .dir := by
  rw [subdirs]
  cases a.entry p with
  | none => simp
  | some i =>
    rw [dirOf_some]
    split <;> simp_all

theorem finite_subdirs (h : (dom a.entry).Finite) : (dom a.subdirs).Finite := by
  refine h.subset fun p hp hnone => hp ?_
  rw [subdirs, hnone, dirOf_none]

theorem subdirs_setEntry :
    (a.setEntry p v).subdirs = Function.update a.subdirs p (a.dirOf p v) := by
  funext q
  rw [subdirs, setEntry_entry, Function.update_apply, Function.update_apply]
  split
  · rw [‹q = p›]
    rfl
  · rfl

theorem names_bind (h : (dom a.entry).Finite) (hp : a.entry p = none) (j : ℕ) :
    (a.setEntry p (some i)).names j = a.names j + if i = j then 1 else 0 := by
  have hcount := ncard_fiber_update (a := p) (v := some i) h j
  simp only [hp, reduceCtorEq, if_false, Nat.add_zero, Option.some.injEq] at hcount
  exact hcount

theorem names_unbind (h : (dom a.entry).Finite) (hp : a.entry p = some i) (j : ℕ) :
    (a.setEntry p none).names j + (if i = j then 1 else 0) = a.names j := by
  have hcount := ncard_fiber_update (a := p) (v := none) h j
  simp only [hp, reduceCtorEq, if_false, Nat.add_zero, Option.some.injEq] at hcount
  exact hcount

theorem dirOf_eq_some : a.dirOf p (some i) = some d ↔ a.kind i = some .dir ∧ p.1 = d := by
  rw [dirOf_some]
  split <;> simp_all

theorem subs_bind (h : (dom a.entry).Finite) (hp : a.entry p = none) (d : ℕ) :
    (a.setEntry p (some i)).subs d =
      a.subs d + if a.kind i = some .dir ∧ p.1 = d then 1 else 0 := by
  have hcount := ncard_fiber_update (a := p) (v := a.dirOf p (some i)) (finite_subdirs h) d
  rw [← subdirs_setEntry, subdirs, hp] at hcount
  simp only [dirOf_none, reduceCtorEq, if_false, Nat.add_zero, dirOf_eq_some] at hcount
  exact hcount

theorem subs_unbind (h : (dom a.entry).Finite) (hp : a.entry p = some i) (d : ℕ) :
    (a.setEntry p none).subs d + (if a.kind i = some .dir ∧ p.1 = d then 1 else 0) =
      a.subs d := by
  have hcount := ncard_fiber_update (a := p) (v := a.dirOf p none) (finite_subdirs h) d
  rw [← subdirs_setEntry, subdirs, hp] at hcount
  simp only [dirOf_none, reduceCtorEq, if_false, Nat.add_zero, dirOf_eq_some] at hcount
  exact hcount

/-- A new inode has no names. -/
theorem names_new (h : a.Names) (hi : a.kind i = none) : a.names i = 0 :=
  ncard_fiber_eq_zero fun p hp => (h.target p i hp).1 hi

/-- A new inode does not change what counts. -/
theorem subdirs_newInode (h : a.Names) (hi : a.kind i = none) :
    (a.newInode i k d).subdirs = a.subdirs := by
  funext p
  rw [subdirs, subdirs, newInode_entry]
  cases hp : a.entry p with
  | none => rfl
  | some j =>
    have hji : j ≠ i := fun hji => (h.target p j hp).1 (hji ▸ hi)
    rw [dirOf_some, dirOf_some, newInode_kind, Function.update_of_ne hji]

/-! ## Operations on inodes that are not directories -/

theorem Counts.create (h : a.Counts slack) (hn : a.Names) (hi : a.kind i = none)
    (hp : a.entry p = none) (hk : k ≠ .dir) : (a.create p i k).Counts slack := by
  have hki : (a.newInode i k p.1).kind i ≠ some .dir := by simpa using hk
  have hlive : ∀ {d}, (a.create p i k).Live d ↔ a.Live d := by
    intro d
    rw [Tree.create, live_bind_iff (a := a.newInode i k p.1) hp, live_newInode_iff hn hi]
    tauto
  have hkind : ∀ {j}, j ≠ i → (a.create p i k).kind j = a.kind j :=
    fun hji => Function.update_of_ne hji ..
  have hlinks : ∀ {j}, j ≠ i → (a.create p i k).links j = a.links j :=
    fun hji => Function.update_of_ne hji ..
  have hlinksi : (a.create p i k).links i = ⟨1, 1⟩ := Function.update_self ..
  have hne : ∀ {j}, a.kind j ≠ none → j ≠ i := fun hj hji => hj (hji ▸ hi)
  have hnames : ∀ j, (a.create p i k).names j = a.names j + if i = j then 1 else 0 :=
    names_bind (a := a.newInode i k p.1) h.finite hp
  have hsubs : ∀ d, (a.create p i k).subs d = a.subs d := by
    intro d
    rw [Tree.create, subs_bind (a := a.newInode i k p.1) h.finite hp, subs, subdirs_newInode hn hi,
      if_neg fun hd => hki hd.1]
    rfl
  refine ⟨dom_update_finite h.finite, fun j kj hj hkj => ?_, fun d hd => ?_, fun d hd hdead => ?_,
    fun j hj => ?_⟩
  · by_cases hji : j = i
    · subst hji
      rw [hnames, if_pos rfl, names_new hn hi]
      rw [nlink, hlinksi]
    · rw [nlink, hlinks hji, hnames, if_neg (Ne.symm hji)]
      exact h.file j kj (hkind hji ▸ hj) hkj
  · rw [hlive] at hd
    rw [nlink, hlinks (hne (by simp [hd.1])), hsubs]
    exact h.live d hd
  · have hdi : d ≠ i := fun hdi => hki (hdi ▸ hd)
    rw [nlink, hlinks hdi]
    exact h.dead d (hkind hdi ▸ hd) fun hl => hdead (hlive.mpr hl)
  · by_cases hji : j = i
    · rw [hji, hlinksi]
      exact ⟨by decide, rfl⟩
    · rw [hlinks hji]
      exact h.ok j (hkind hji ▸ hj)

theorem Counts.link (h : a.Counts slack) (hp : a.entry p = none) (hi : a.kind i = some k)
    (hk : k ≠ .dir) (hmax : a.nlink i < pmfsLinkMax) : (a.link p i).Counts slack := by
  have hdir : a.kind i ≠ some .dir := by simpa [hi] using hk
  have hlive : ∀ {d}, (a.link p i).Live d ↔ a.Live d := by
    intro d
    rw [Tree.link, live_modifyLinks, live_bind_iff hp]
    tauto
  have hlinks : ∀ {j}, j ≠ i → (a.link p i).links j = a.links j :=
    fun hji => Function.update_of_ne hji ..
  have hlinksi : (a.link p i).links i = (a.links i).pmfsIncCount := Function.update_self ..
  have hnames : ∀ j, (a.link p i).names j = a.names j + if i = j then 1 else 0 :=
    names_bind h.finite hp
  have hsubs : ∀ d, (a.link p i).subs d = a.subs d := by
    intro d
    refine (subs_bind h.finite hp d).trans ?_
    rw [if_neg fun hd => hdir hd.1, Nat.add_zero]
  have hne : ∀ {d}, a.kind d = some .dir → d ≠ i := fun hd hdi => hdir (hdi ▸ hd)
  refine ⟨dom_update_finite h.finite, fun j kj hj hkj => ?_, fun d hd => ?_, fun d hd hdead => ?_,
    fun j hj => ?_⟩
  · have hfile := h.file j kj hj hkj
    by_cases hji : j = i
    · subst hji
      rw [hnames, if_pos rfl, nlink, hlinksi, Links.iNlink_inc, ← nlink, hfile]
    · rw [nlink, hlinks hji, hnames, if_neg (Ne.symm hji)]
      exact hfile
  · rw [hlive] at hd
    rw [nlink, hlinks (hne hd.1), hsubs]
    exact h.live d hd
  · rw [nlink, hlinks (hne hd)]
    exact h.dead d hd fun hl => hdead (hlive.mpr hl)
  · by_cases hji : j = i
    · rw [hji, hlinksi]
      exact .inc hmax
    · rw [hlinks hji]
      exact h.ok j hj

theorem Counts.unlink (h : a.Counts slack) (hn : a.Names) (hp : a.entry p = some i)
    (hdir : a.kind i ≠ some .dir) : (a.unlink p i).Counts slack := by
  have hne : ∀ {d}, a.kind d = some .dir → d ≠ i := fun hd hdi => hdir (hdi ▸ hd)
  have hlive : ∀ {d}, (a.unlink p i).Live d ↔ a.Live d := by
    intro d
    rw [Tree.unlink, live_modifyLinks, live_unbind_iff hn hp]
    exact and_iff_left_of_imp fun hd => hne hd.1
  have hlinks : ∀ {j}, j ≠ i → (a.unlink p i).links j = a.links j :=
    fun hji => Function.update_of_ne hji ..
  have hlinksi : (a.unlink p i).links i = (a.links i).pmfsDecCount := Function.update_self ..
  have hnames : ∀ j, (a.unlink p i).names j + (if i = j then 1 else 0) = a.names j :=
    names_unbind h.finite hp
  have hsubs : ∀ d, (a.unlink p i).subs d = a.subs d := by
    intro d
    have := subs_unbind h.finite hp d
    rwa [if_neg fun hd => hdir hd.1, Nat.add_zero] at this
  refine ⟨dom_update_finite h.finite, fun j kj hj hkj => ?_, fun d hd => ?_, fun d hd hdead => ?_,
    fun j hj => ?_⟩
  · have hfile := h.file j kj hj hkj
    have hname := hnames j
    by_cases hji : j = i
    · subst hji
      rw [if_pos rfl] at hname
      rw [nlink, hlinksi, Links.iNlink_dec, ← nlink, hfile]
      omega
    · rw [if_neg (Ne.symm hji)] at hname
      rw [nlink, hlinks hji, ← nlink, hfile]
      omega
  · rw [hlive] at hd
    rw [nlink, hlinks (hne hd.1), hsubs]
    exact h.live d hd
  · rw [nlink, hlinks (hne hd)]
    exact h.dead d hd fun hl => hdead (hlive.mpr hl)
  · by_cases hji : j = i
    · rw [hji, hlinksi]
      exact (h.ok i (hji ▸ hj)).dec
    · rw [hlinks hji]
      exact h.ok j hj

/-! ## Operations on directories -/

theorem Counts.mkdir (h : a.Counts slack) (hn : a.Names) (hi : a.kind i = none)
    (hp : a.entry p = none) (hpl : a.Live p.1) (hmax : a.nlink p.1 < pmfsLinkMax) :
    (a.mkdir p i).Counts (Function.update slack i 0) := by
  have hpi : p.1 ≠ i := fun hpi => by
    rw [Live, hpi, hi] at hpl
    cases hpl.1
  have hkindi : (a.mkdir p i).kind i = some .dir := Function.update_self ..
  have hkind : ∀ {j}, j ≠ i → (a.mkdir p i).kind j = a.kind j :=
    fun hji => Function.update_of_ne hji ..
  have hlive : ∀ {d}, (a.mkdir p i).Live d ↔ a.Live d ∨ d = i := by
    intro d
    refine (live_bind_iff (a := a.newInode i .dir p.1) hp).trans ?_
    rw [live_newInode_iff hn hi, newInode_kind, Function.update_self]
    tauto
  have hlinksi : (a.mkdir p i).links i = ⟨2, 2⟩ := by
    simp [Tree.mkdir, Function.update_of_ne hpi.symm, Links.setNlink, Links.pmfsUpdateNlink]
  have hlinksp : (a.mkdir p i).links p.1 = (a.links p.1).pmfsIncCount := by
    simp [Tree.mkdir, Function.update_of_ne hpi]
  have hlinks : ∀ {j}, j ≠ i → j ≠ p.1 → (a.mkdir p i).links j = a.links j := by
    intro j hji hjp
    simp [Tree.mkdir, Function.update_of_ne hji, Function.update_of_ne hjp]
  have hnames : ∀ j, (a.mkdir p i).names j = a.names j + if i = j then 1 else 0 :=
    names_bind (a := a.newInode i .dir p.1) h.finite hp
  have hsubs : ∀ d, (a.mkdir p i).subs d = a.subs d + if p.1 = d then 1 else 0 := by
    intro d
    refine (subs_bind (a := a.newInode i .dir p.1) h.finite hp d).trans ?_
    rw [newInode_kind, Function.update_self, subs, subdirs_newInode hn hi]
    simp [subs]
  have hsubsi : a.subs i = 0 := by
    refine ncard_fiber_eq_zero fun r hr => ?_
    obtain ⟨rfl, j, hj, -⟩ := subdirs_eq_some.mp hr
    have := (hn.holder r j hj).1
    rw [hi] at this
    cases this
  refine ⟨dom_update_finite h.finite, fun j kj hj hkj => ?_, fun d hd => ?_, fun d hd hdead => ?_,
    fun j hj => ?_⟩
  · have hji : j ≠ i := fun hji => hkj (by simpa [hji, hkindi] using hj.symm)
    rw [hkind hji] at hj
    have hjp : j ≠ p.1 := fun hjp => hkj (by simpa [hjp, hpl.1] using hj.symm)
    rw [nlink, hlinks hji hjp, hnames, if_neg (Ne.symm hji)]
    exact h.file j kj hj hkj
  · by_cases hdi : d = i
    · subst hdi
      rw [nlink, hlinksi, hsubs, if_neg hpi, hsubsi, Function.update_self]
    · have hold := h.live d ((hlive.mp hd).resolve_right hdi)
      rw [Function.update_of_ne hdi, hsubs]
      by_cases hdp : d = p.1
      · subst hdp
        rw [nlink, hlinksp, Links.iNlink_inc, ← nlink, if_pos rfl]
        omega
      · rw [nlink, hlinks hdi hdp, ← nlink, if_neg (Ne.symm hdp)]
        omega
  · rw [hlive, not_or] at hdead
    have hdp : d ≠ p.1 := fun hdp => hdead.1 (hdp ▸ hpl)
    rw [Function.update_of_ne hdead.2, nlink, hlinks hdead.2 hdp]
    exact h.dead d (hkind hdead.2 ▸ hd) hdead.1
  · by_cases hji : j = i
    · rw [hji, hlinksi]
      exact ⟨by decide, rfl⟩
    · by_cases hjp : j = p.1
      · rw [hjp, hlinksp]
        exact .inc hmax
      · rw [hlinks hji hjp]
        exact h.ok j (hkind hji ▸ hj)

theorem Counts.rmdir (h : a.Counts slack) (hn : a.Names) (hp : a.entry p = some i)
    (hi : a.kind i = some .dir) (hv : a.Vacant i) : (a.rmdir p i).Counts slack := by
  have hpl := hn.holder p i hp
  have hpi : p.1 ≠ i := hn.ne_vacant hv (by simp [hp])
  have hlive : ∀ {d}, (a.rmdir p i).Live d ↔ a.Live d ∧ d ≠ i :=
    live_unbind_iff hn hp
  have hlinksi : (a.rmdir p i).links i = (a.links i).clearNlink.pmfsUpdateNlink := by
    simp [Tree.rmdir, Function.update_of_ne hpi.symm]
  have hlinksp : (a.rmdir p i).links p.1 = (a.links p.1).pmfsDecCount := by
    simp [Tree.rmdir, Function.update_of_ne hpi]
  have hlinks : ∀ {j}, j ≠ i → j ≠ p.1 → (a.rmdir p i).links j = a.links j := by
    intro j hji hjp
    simp [Tree.rmdir, Function.update_of_ne hji, Function.update_of_ne hjp]
  have hnames : ∀ j, (a.rmdir p i).names j + (if i = j then 1 else 0) = a.names j :=
    names_unbind h.finite hp
  have hsubs : ∀ d, (a.rmdir p i).subs d + (if p.1 = d then 1 else 0) = a.subs d := by
    intro d
    have := subs_unbind h.finite hp d
    simp only [hi, true_and] at this
    exact this
  refine ⟨dom_update_finite h.finite, fun j kj hj hkj => ?_, fun d hd => ?_, fun d hd hdead => ?_,
    fun j hj => ?_⟩
  · have hj : a.kind j = some kj := hj
    have hji : j ≠ i := fun hji => hkj (by simpa [hji, hi] using hj.symm)
    have hjp : j ≠ p.1 := fun hjp => hkj (by simpa [hjp, hpl.1] using hj.symm)
    have hname := hnames j
    rw [if_neg (Ne.symm hji)] at hname
    rw [nlink, hlinks hji hjp, ← nlink, h.file j kj hj hkj]
    omega
  · obtain ⟨hd, hdi⟩ := hlive.mp hd
    have hold := h.live d hd
    have hsub := hsubs d
    by_cases hdp : d = p.1
    · subst hdp
      rw [if_pos rfl] at hsub
      rw [nlink, hlinksp, Links.iNlink_dec, ← nlink]
      omega
    · rw [if_neg (Ne.symm hdp)] at hsub
      rw [nlink, hlinks hdi hdp, ← nlink]
      omega
  · by_cases hdi : d = i
    · rw [hdi, nlink, hlinksi]
      exact Nat.zero_le _
    · have hdl : ¬a.Live d := fun hdl => hdead (hlive.mpr ⟨hdl, hdi⟩)
      have hdp : d ≠ p.1 := fun hdp => hdl (hdp ▸ hpl)
      rw [nlink, hlinks hdi hdp]
      exact h.dead d hd hdl
  · by_cases hji : j = i
    · rw [hji, hlinksi]
      exact .clear
    · by_cases hjp : j = p.1
      · rw [hjp, hlinksp]
        exact (h.ok p.1 (by simp [hpl.1])).dec
      · rw [hlinks hji hjp]
        exact h.ok j hj

/-! ## Renames -/

section Rename

variable (h : a.Counts slack) (hn : a.Names) (hpq : p ≠ q) (hp : a.entry p = some i)

include hpq hp

theorem names_move (h : (dom a.entry).Finite) (j : ℕ) :
    (a.move p q i).names j + (if a.entry q = some j then 1 else 0) = a.names j := by
  have henter := ncard_fiber_update (a := q) (v := some i) h j
  have hold : (a.setEntry q (some i)).entry p = some i := by
    rw [setEntry_entry, Function.update_of_ne hpq, hp]
  have hleave := names_unbind (dom_update_finite h) hold j
  simp only [Option.some.injEq] at henter
  change (a.setEntry q (some i)).names j + _ = a.names j + _ at henter
  rw [Tree.move]
  omega

theorem subs_move (h : (dom a.entry).Finite) (d : ℕ) :
    (a.move p q i).subs d + (if a.kind i = some .dir ∧ p.1 = d then 1 else 0) +
        (if a.subdirs q = some d then 1 else 0) =
      a.subs d + if a.kind i = some .dir ∧ q.1 = d then 1 else 0 := by
  have henter := ncard_fiber_update (a := q) (v := a.dirOf q (some i)) (finite_subdirs h) d
  rw [← subdirs_setEntry] at henter
  simp only [dirOf_eq_some] at henter
  change (a.setEntry q (some i)).subs d + _ = a.subs d + _ at henter
  have hold : (a.setEntry q (some i)).entry p = some i := by
    rw [setEntry_entry, Function.update_of_ne hpq, hp]
  have hleave := subs_unbind (dom_update_finite h) hold d
  rw [setEntry_kind] at hleave
  rw [Tree.move]
  omega

end Rename

theorem renameCounts_names {isDir : Bool} {old new j : ℕ} {n : Option ℕ} :
    (a.renameCounts isDir old new n).names j = a.names j := by
  rw [names, names, renameCounts_entry]

theorem renameCounts_subs {isDir : Bool} {old new : ℕ} {n : Option ℕ} :
    (a.renameCounts isDir old new n).subs d = a.subs d := by
  cases n <;> cases isDir <;> rfl

theorem finite_rename (h : (dom a.entry).Finite) : (dom (a.rename p q i).entry).Finite := by
  rw [Tree.rename, renameCounts_entry]
  exact dom_update_finite (dom_update_finite h)

/-- A file takes a new name, maybe that of another file. -/
theorem Counts.rename_file (h : a.Counts slack) (hn : a.Names) (hpq : p ≠ q)
    (hp : a.entry p = some i) (hi : a.kind i ≠ some .dir)
    (hq : ∀ n, a.entry q = some n → n ≠ i ∧ a.kind n ≠ some .dir) :
    (a.rename p q i).Counts slack := by
  have hqi : a.entry q ≠ some i := fun hqi => (hq i hqi).1 rfl
  have hqd : ∀ {d}, a.kind d = some .dir → a.entry q ≠ some d := fun hd hqd => (hq _ hqd).2 hd
  have hmove : ∀ {d}, (a.move p q i).Live d ↔ a.Live d := fun {d} =>
    (live_move_iff hn hpq hp hqi).trans (and_iff_left_of_imp fun hd => hqd hd.1)
  have hnames := names_move hpq hp h.finite
  have hsubs : ∀ d, (a.move p q i).subs d = a.subs d := by
    intro d
    have hsub := subs_move (q := q) hpq hp h.finite d
    have hno : a.subdirs q ≠ some d := by
      rw [Ne, subdirs_eq_some]
      rintro ⟨-, n, hqn, hn⟩
      exact hqd hn hqn
    rwa [if_neg hno, if_neg fun hd => hi hd.1, if_neg fun hd => hi hd.1] at hsub
  have hlinks : ∀ j, (a.rename p q i).links j =
      if a.entry q = some j then (a.links j).replaced false else a.links j := by
    intro j
    rw [Tree.rename, decide_eq_false hi]
    cases hqn : a.entry q with
    | none => simp [Tree.renameCounts, Tree.move]
    | some n =>
      by_cases hnj : n = j
      · simp [Tree.renameCounts, Tree.move, hnj]
      · simp [Tree.renameCounts, Tree.move, hnj, Function.update_of_ne (Ne.symm hnj)]
  have hlive : ∀ {d}, (a.rename p q i).Live d ↔ a.Live d :=
    fun {d} => live_renameCounts.trans hmove
  refine ⟨finite_rename h.finite, fun j kj hj hkj => ?_, fun d hd => ?_, fun d hd hdead => ?_,
    fun j hj => ?_⟩
  · rw [Tree.rename, renameCounts_kind] at hj
    have hname := hnames j
    have hfile := h.file j kj hj hkj
    rw [nlink, hlinks, Tree.rename, renameCounts_names]
    by_cases hqj : a.entry q = some j
    · rw [if_pos hqj] at hname ⊢
      rw [Links.iNlink_replaced, ← nlink, hfile]
      simp only [Bool.false_eq_true, if_false]
      omega
    · rw [if_neg hqj] at hname ⊢
      rw [← nlink, hfile]
      omega
  · rw [hlive] at hd
    rw [nlink, hlinks, if_neg (hqd hd.1), Tree.rename, renameCounts_subs, hsubs]
    exact h.live d hd
  · rw [Tree.rename, renameCounts_kind] at hd
    rw [nlink, hlinks, if_neg (hqd hd)]
    exact h.dead d hd fun hl => hdead (hlive.mpr hl)
  · rw [Tree.rename, renameCounts_kind] at hj
    rw [hlinks]
    split
    · exact (h.ok j hj).replaced
    · exact h.ok j hj

/-- A directory takes a free name. -/
theorem Counts.rename_dir (h : a.Counts slack) (hn : a.Names) (hpq : p ≠ q)
    (hp : a.entry p = some i) (hi : a.kind i = some .dir) (hq : a.entry q = none)
    (hql : a.Live q.1) (hmax : a.nlink q.1 < pmfsLinkMax) : (a.rename p q i).Counts slack := by
  have hpl := hn.holder p i hp
  have hlive : ∀ {d}, (a.rename p q i).Live d ↔ a.Live d := by
    intro d
    rw [Tree.rename, live_renameCounts, live_move_iff hn hpq hp (by simp [hq])]
    simp [hq]
  have hnames : ∀ j, (a.move p q i).names j = a.names j := by
    intro j
    have := names_move hpq hp h.finite j
    rwa [hq, if_neg (by simp)] at this
  have hsubs : ∀ d, (a.move p q i).subs d + (if p.1 = d then 1 else 0) =
      a.subs d + if q.1 = d then 1 else 0 := by
    intro d
    have := subs_move (q := q) hpq hp h.finite d
    simpa [hi, subdirs, hq] using this
  have hlinks : (a.rename p q i).links =
      ((a.modifyLinks q.1 Links.pmfsIncCount).modifyLinks p.1 Links.pmfsDecCount).links := by
    rw [Tree.rename, decide_eq_true hi, hq]
    rfl
  have hother : ∀ {j}, j ≠ p.1 → j ≠ q.1 → (a.rename p q i).links j = a.links j := by
    intro j hjp hjq
    simp [hlinks, Function.update_of_ne hjp, Function.update_of_ne hjq]
  have hlinksp : (a.rename p q i).links p.1 =
      (if p.1 = q.1 then (a.links p.1).pmfsIncCount else a.links p.1).pmfsDecCount := by
    rw [hlinks, modifyLinks_links, Function.update_self, modifyLinks_links, Function.update_apply]
    split
    · rw [‹p.1 = q.1›]
    · rfl
  have hlinksq : p.1 ≠ q.1 → (a.rename p q i).links q.1 = (a.links q.1).pmfsIncCount := by
    intro hne
    rw [hlinks, modifyLinks_links, Function.update_of_ne hne.symm, modifyLinks_links,
      Function.update_self]
  refine ⟨finite_rename h.finite, fun j kj hj hkj => ?_, fun d hd => ?_, fun d hd hdead => ?_,
    fun j hj => ?_⟩
  · rw [Tree.rename, renameCounts_kind] at hj
    have hj : a.kind j = some kj := hj
    have hjp : j ≠ p.1 := fun hjp => hkj (by simpa [hjp, hpl.1] using hj.symm)
    have hjq : j ≠ q.1 := fun hjq => hkj (by simpa [hjq, hql.1] using hj.symm)
    rw [nlink, hother hjp hjq, Tree.rename, renameCounts_names, hnames]
    exact h.file j kj hj hkj
  · rw [hlive] at hd
    have hold := h.live d hd
    have hsub := hsubs d
    rw [nlink, Tree.rename, renameCounts_subs, ← Tree.rename]
    by_cases hdp : d = p.1
    · subst hdp
      rw [if_pos rfl] at hsub
      rw [hlinksp, Links.iNlink_dec]
      by_cases heq : p.1 = q.1
      · rw [if_pos heq.symm] at hsub
        rw [if_pos heq, Links.iNlink_inc, ← nlink]
        omega
      · rw [if_neg (Ne.symm heq)] at hsub
        rw [if_neg heq, ← nlink]
        omega
    · rw [if_neg (Ne.symm hdp)] at hsub
      by_cases hdq : d = q.1
      · subst hdq
        rw [if_pos rfl] at hsub
        rw [hlinksq (Ne.symm hdp), Links.iNlink_inc, ← nlink]
        omega
      · rw [if_neg (Ne.symm hdq)] at hsub
        rw [hother hdp hdq, ← nlink]
        omega
  · rw [Tree.rename, renameCounts_kind] at hd
    have hdl : ¬a.Live d := fun hdl => hdead (hlive.mpr hdl)
    have hdp : d ≠ p.1 := fun hdp => hdl (hdp ▸ hpl)
    have hdq : d ≠ q.1 := fun hdq => hdl (hdq ▸ hql)
    rw [nlink, hother hdp hdq]
    exact h.dead d hd hdl
  · rw [Tree.rename, renameCounts_kind] at hj
    have hok := h.ok j hj
    by_cases hjp : j = p.1
    · subst hjp
      rw [hlinksp]
      split
      · refine (Links.Ok.inc ?_).dec
        rwa [‹p.1 = q.1›]
      · exact hok.dec
    · by_cases hjq : j = q.1
      · subst hjq
        rw [hlinksq (Ne.symm hjp)]
        exact .inc hmax
      · rw [hother hjp hjq]
        exact hok

/-- A directory takes the name of another one: the directory that held it keeps counting it. -/
theorem Counts.rename_over (h : a.Counts slack) (hn : a.Names) (hpq : p ≠ q)
    (hp : a.entry p = some i) (hi : a.kind i = some .dir) {n : ℕ} (hq : a.entry q = some n)
    (hni : n ≠ i) (hnd : a.kind n = some .dir) (hv : a.Vacant n) :
    (a.rename p q i).Counts (Function.update slack p.1 (slack p.1 + 1)) := by
  have hpl := hn.holder p i hp
  have hpn : p.1 ≠ n := hn.ne_vacant hv (by simp [hp])
  have hqi : a.entry q ≠ some i := by simpa [hq] using hni
  have hlive : ∀ {d}, (a.rename p q i).Live d ↔ a.Live d ∧ d ≠ n := by
    intro d
    rw [Tree.rename, live_renameCounts, live_move_iff hn hpq hp hqi, hq]
    simp [eq_comm]
  have hnames : ∀ j, (a.move p q i).names j + (if n = j then 1 else 0) = a.names j := by
    intro j
    simpa [hq] using names_move hpq hp h.finite j
  have hsubs : ∀ d, (a.move p q i).subs d + (if p.1 = d then 1 else 0) = a.subs d := by
    intro d
    have := subs_move (q := q) hpq hp h.finite d
    simp only [hi, true_and, subdirs, hq, dirOf_eq_some, hnd] at this
    omega
  have hlinks : (a.rename p q i).links = (a.modifyLinks n (Links.replaced true)).links := by
    rw [Tree.rename, decide_eq_true hi, hq]
    rfl
  have hlinksn : (a.rename p q i).links n = (a.links n).replaced true := by
    rw [hlinks, modifyLinks_links, Function.update_self]
  have hother : ∀ {j}, j ≠ n → (a.rename p q i).links j = a.links j := by
    intro j hjn
    rw [hlinks, modifyLinks_links, Function.update_of_ne hjn]
  have hsubsn : a.subs n = 0 := by
    refine ncard_fiber_eq_zero fun r hr => ?_
    obtain ⟨hrn, j, hj, -⟩ := subdirs_eq_some.mp hr
    exact hn.ne_vacant hv (by simp [hj]) hrn
  refine ⟨finite_rename h.finite, fun j kj hj hkj => ?_, fun d hd => ?_, fun d hd hdead => ?_,
    fun j hj => ?_⟩
  · rw [Tree.rename, renameCounts_kind] at hj
    have hj : a.kind j = some kj := hj
    have hjn : j ≠ n := fun hjn => hkj (by simpa [hjn, hnd] using hj.symm)
    have hname := hnames j
    rw [if_neg (Ne.symm hjn)] at hname
    rw [nlink, hother hjn, Tree.rename, renameCounts_names, ← nlink, h.file j kj hj hkj]
    omega
  · obtain ⟨hd, hdn⟩ := hlive.mp hd
    have hold := h.live d hd
    have hsub := hsubs d
    rw [nlink, hother hdn, Tree.rename, renameCounts_subs, ← nlink]
    by_cases hdp : d = p.1
    · subst hdp
      rw [if_pos rfl] at hsub
      rw [Function.update_self]
      omega
    · rw [if_neg (Ne.symm hdp)] at hsub
      rw [Function.update_of_ne hdp]
      omega
  · rw [Tree.rename, renameCounts_kind] at hd
    by_cases hdn : d = n
    · subst hdn
      rw [nlink, hlinksn, Links.iNlink_replaced, Function.update_of_ne hpn.symm, ← nlink]
      have hnl : a.nlink d = 2 + a.subs d + slack d := h.live d ⟨hnd, .inr ⟨q, hq⟩⟩
      simp only [if_true]
      omega
    · have hdl : ¬a.Live d := fun hdl => hdead (hlive.mpr ⟨hdl, hdn⟩)
      have hdp : d ≠ p.1 := fun hdp => hdl (hdp ▸ hpl)
      rw [nlink, hother hdn, Function.update_of_ne hdp]
      exact h.dead d hd hdl
  · rw [Tree.rename, renameCounts_kind] at hj
    by_cases hjn : j = n
    · subst hjn
      rw [hlinksn]
      exact (h.ok j hj).replaced
    · rw [hother hjn]
      exact h.ok j hj

/-! ## Eviction -/

/-- Without links an inode has no name. -/
theorem Counts.unnamed (h : a.Counts slack) (hn : a.Names) (hi : a.kind i ≠ none)
    (hzero : a.nlink i = 0) : (∀ p, a.entry p ≠ some i) ∧ i ≠ pmfsRootIno := by
  obtain ⟨k, hk⟩ := Option.ne_none_iff_exists'.mp hi
  by_cases hdir : k = .dir
  · subst hdir
    have hdead : ¬a.Live i := fun hl => by
      have := h.live i hl
      omega
    exact ⟨fun p hp => hdead ⟨hk, .inr ⟨p, hp⟩⟩, fun hroot => hdead ⟨hk, .inl hroot⟩⟩
  · have hfile := h.file i k hk hdir
    refine ⟨fun p hp => ?_, fun hroot => ?_⟩
    · have hempty : fiber a.entry i = ∅ :=
        (Set.ncard_eq_zero (finite_fiber h.finite i)).mp (hfile.symm.trans hzero)
      have hmem : p ∈ fiber a.entry i := hp
      rw [hempty] at hmem
      exact hmem
    · rw [hroot, hn.root] at hk
      cases hk
      exact hdir rfl

theorem Counts.evict (h : a.Counts slack) (hno : ∀ p, a.entry p ≠ some i) :
    (a.evict i).Counts slack := by
  have hne : ∀ {j}, (a.evict i).kind j ≠ none → j ≠ i := by
    rintro j hj rfl
    exact hj (Function.update_self ..)
  have hkind : ∀ {j}, j ≠ i → (a.evict i).kind j = a.kind j :=
    fun hji => Function.update_of_ne hji ..
  have hlive : ∀ {d}, d ≠ i → ((a.evict i).Live d ↔ a.Live d) := by
    intro d hd
    rw [Live, Live, hkind hd]
    rfl
  have hsubs : (a.evict i).subdirs = a.subdirs := by
    funext p
    rw [subdirs, subdirs]
    change (a.evict i).dirOf p (a.entry p) = _
    cases hp : a.entry p with
    | none => rfl
    | some j => rw [dirOf_some, dirOf_some, hkind fun hji => hno p (hji ▸ hp)]
  refine ⟨h.finite, fun j kj hj hkj => ?_, fun d hd => ?_, fun d hd hdead => ?_, fun j hj => ?_⟩
  · rw [hkind (hne (by simp [hj]))] at hj
    exact h.file j kj hj hkj
  · rw [hlive (hne (by simp [hd.1]))] at hd
    rw [subs, hsubs]
    exact h.live d hd
  · have hdi : d ≠ i := hne (by simp [hd])
    rw [hkind hdi] at hd
    exact h.dead d hd fun hl => hdead ((hlive hdi).mpr hl)
  · have hji := hne hj
    rw [hkind hji] at hj
    exact h.ok j hj

end Tree

end Wpmfs.Namei
