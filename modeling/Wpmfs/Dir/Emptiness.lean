import Wpmfs.Dir.Dots

/-!
# The emptiness test for `rmdir`

Above the file system no call names `.` or `..`. A run of such calls from the directory that
`pmfs_mkdir` makes keeps `Houses`, so `pmfs_empty_dir` accepts exactly the directories that hold no
other name.
-/

namespace Wpmfs.Dir

open Assoc

/-- A call from above the file system. A name has 1 to 255 bytes and is not added while it is
there. A block for the directory to grow may be there or not, and a call that fails leaves the
directory as it is. -/
inductive DirRun.Called (s : DirRun) : DirRun → Prop
  | added {name : Name} {inode : ℕ} {alloc : Except Errno Block} {dir : DirInode}
      (hne : name ≠ []) (hlen : name.length ≤ pmfsNameLen) (hdot : name ≠ dot)
      (hdotdot : name ≠ dotdot) (hnew : s.map name = none) (hpos : 0 < inode)
      (hinode : inode < 2 ^ 64) (hadd : pmfsAddEntry s.dir name inode alloc = some (.ok dir)) :
      Called s ⟨dir, Function.update s.map name (some inode)⟩
  | notAdded {name : Name} {inode : ℕ} {alloc : Except Errno Block} {e : Errno}
      (hadd : pmfsAddEntry s.dir name inode alloc = some (.error e)) : Called s s
  | removed {name : Name} {dir : DirInode} (hdot : name ≠ dot) (hdotdot : name ≠ dotdot)
      (hremove : pmfsRemoveEntry s.dir name = .ok dir) :
      Called s ⟨dir, Function.update s.map name none⟩
  | notRemoved {name : Name} {e : Errno} (hremove : pmfsRemoveEntry s.dir name = .error e) :
      Called s s

abbrev DirRun.CalledAny : DirRun → DirRun → Prop := Relation.ReflTransGen DirRun.Called

/-- The map of a run is what the directory holds, `.` and `..` included. -/
def DirRun.Housed (s : DirRun) (parent : ℕ) : Prop :=
  ∃ m, Houses s.dir parent m ∧ s.map = withDots s.dir.iIno parent m

variable {s t : DirRun} {b : Block} {iIno parent : ℕ}

theorem pmfsAddEntry_iIno {dir dir' : DirInode} {name : Name} {inode : ℕ}
    {alloc : Except Errno Block} (h : pmfsAddEntry dir name inode alloc = some (.ok dir')) :
    dir'.iIno = dir.iIno := by
  unfold pmfsAddEntry pmfsAddDirentToBuf at h
  grind [Except.map]

theorem pmfsRemoveEntry_iIno {dir dir' : DirInode} {name : Name}
    (h : pmfsRemoveEntry dir name = .ok dir') : dir'.iIno = dir.iIno := by
  unfold pmfsRemoveEntry at h
  grind

theorem DirRun.housed_start (hi : 0 < iIno) (hi' : iIno < 2 ^ 64) (hp : 0 < parent)
    (hp' : parent < 2 ^ 64) : (DirRun.start iIno parent b).Housed parent :=
  ⟨fun _ => none, houses_mkdirDir hi.ne' hi' hp.ne' hp', rfl⟩

theorem DirRun.Called.housed (hcall : s.Called t) (h : s.Housed parent) : t.Housed parent := by
  obtain ⟨m, hhouses, hmap⟩ := h
  cases hcall with
  | @added name inode alloc dir hne hlen hdot hdotdot hnew hpos hinode hadd =>
    have hfree : m name = none := by rwa [hmap, withDots_of_ne hdot hdotdot] at hnew
    rcases hhouses.add alloc hne hlen hdot hdotdot hfree hpos.ne' hinode with
      ⟨e, -, herror⟩ | ⟨dir', hok, hhouses'⟩
    · rw [herror] at hadd
      cases hadd
    · obtain rfl : dir' = dir := by simpa using hok.symm.trans hadd
      refine ⟨_, hhouses', ?_⟩
      rw [withDots_update hdot hdotdot, pmfsAddEntry_iIno hadd, hmap]
  | notAdded => exact ⟨m, hhouses, hmap⟩
  | @removed name dir hdot hdotdot hremove =>
    by_cases hthere : m name = none
    · obtain ⟨ess, hlists⟩ := id hhouses
      rcases pmfsRemoveEntry_spec name hlists.tiled with
        ⟨herror, -⟩ | ⟨blocks, ess', hok, -, hone⟩
      · rw [herror] at hremove
        cases hremove
      · -- a name that is taken out was there
        obtain ⟨i, hi, hperm⟩ := hone.unlinks_perm
        have hbound := (hlists.maps.mem_iff name i).mp (hperm.mem_iff.mpr (.head _))
        rw [withDots_of_ne hdot hdotdot, hthere] at hbound
        cases hbound
    · obtain ⟨dir', hok, hhouses'⟩ := hhouses.remove hdot hdotdot hthere
      obtain rfl : dir' = dir := by simpa using hok.symm.trans hremove
      refine ⟨_, hhouses', ?_⟩
      rw [withDots_update hdot hdotdot, pmfsRemoveEntry_iIno hremove, hmap]
  | notRemoved => exact ⟨m, hhouses, hmap⟩

theorem DirRun.CalledAny.housed (hrun : s.CalledAny t) (h : s.Housed parent) : t.Housed parent := by
  induction hrun with
  | refl => exact h
  | tail _ hcall ih => exact hcall.housed ih

end Wpmfs.Dir
