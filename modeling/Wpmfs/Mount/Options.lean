import Mathlib.Algebra.Order.Ring.Int
import Mathlib.Algebra.Order.Ring.Nat
import Mathlib.Data.List.Basic

/-!
# Options of a remount

`pmfs_remount` parses its options one by one, and each of them takes effect at once: in the data of
the super block, or in a global variable. When one of them is refused, only the flags of the super
block and `s_mount_opt` are put back. The allocator and `vmap` can be set like any other option.
-/

namespace Wpmfs.Mount

/-! ## The source -/

/-- The values of `token`. -/
inductive Token where
  | bpi | init | jsize | numInodes | mode | uid | gid | wprotect | wprotectold
  | errCont | errPanic | errRo | hugemmap | nohugeioremap | dbgmask | tracemask
  | bs | vmap | wlsw | alloc | intThres | cellEndur | err
deriving DecidableEq, Repr

/-- `tokens`, up to the entry that everything matches. -/
def tokens : List (Token × List Char) :=
  [(.bpi, "bpi=%u".toList), (.init, "init".toList), (.jsize, "jsize=%s".toList),
    (.numInodes, "num_inodes=%u".toList), (.mode, "mode=%o".toList), (.uid, "uid=%u".toList),
    (.gid, "gid=%u".toList), (.wprotect, "wprotect".toList),
    (.wprotectold, "wprotectold".toList), (.errCont, "errors=continue".toList),
    (.errPanic, "errors=panic".toList), (.errRo, "errors=remount-ro".toList),
    (.hugemmap, "hugemmap".toList), (.nohugeioremap, "nohugeioremap".toList),
    (.dbgmask, "dbgmask=%u".toList), (.tracemask, "tracemask=%u".toList),
    (.bs, "backing_dev=%s".toList), (.vmap, "vmap".toList), (.wlsw, "wlsw=%u".toList),
    (.alloc, "alloc=%u".toList), (.intThres, "int_thres=%u".toList),
    (.cellEndur, "cell_endur=%u".toList)]

/-- What the kernel's parser library does. `matchOne` gives the text of the argument. -/
structure Kernel where
  matchOne : (p pattern : List Char) → Option (List Char)
  matchInt : List Char → Option Int32
  matchOctal : List Char → Option Int32
  memparse : List Char → UInt64
  makeKuid : Int32 → UInt32
  makeKgid : Int32 → UInt32

/-- The functions that `Allocator` points to. -/
inductive Allocator where
  | wpmfs
  | pmfs
deriving DecidableEq, Repr

/-- What options are kept in: the flags of the super block, its data, and global variables; and the
times in the super block of the device. -/
@[ext] structure Options where
  sFlags : UInt64
  sMountOpt : UInt64
  bpi : UInt64
  numInodes : UInt64
  jsize : UInt32
  uid : UInt32
  gid : UInt32
  mode : UInt16
  vmapEnabled : Bool
  allocator : Allocator
  wlSwitch : Int32
  intThresPower : UInt64
  cellEndurPower : UInt64
  dbgmask : UInt32
  tracemask : UInt32
  sMtime : UInt32
  sWtime : UInt32
deriving DecidableEq, Repr

/-- The labels that an option is refused at. -/
inductive Refusal where
  | badVal
  | badOpt
deriving DecidableEq, Repr

/-- The bits `PMFS_MOUNT_*`. -/
def mountProtect : UInt64 := 0x1
def mountPosixAcl : UInt64 := 0x4
def mountErrorsCont : UInt64 := 0x10
def mountErrorsRo : UInt64 := 0x20
def mountErrorsPanic : UInt64 := 0x40
def mountHugemmap : UInt64 := 0x80
def mountHugeioremap : UInt64 := 0x100
def mountProtectOld : UInt64 := 0x200
def mountFormat : UInt64 := 0x400

/-- `MS_RDONLY` and `MS_POSIXACL`. -/
def msRdonly : UInt64 := 0x1
def msPosixacl : UInt64 := 0x10000

/-- `PMFS_MINIMUM_JOURNAL_SIZE`. -/
def minimumJournalSize : UInt32 := 0x10000

/-- `EINVAL`. -/
def einval : Int := 22

/-- `wpmfs_select_allocator`. -/
def wpmfsSelectAllocator (alloc : Int32) : Option Allocator :=
  if alloc = 0 then some .wpmfs
  else if alloc = 1 then some .pmfs
  else none

/-- The new `s_mount_opt` of the three `errors=` options. -/
def errorsOpt (clear₁ clear₂ set o : UInt64) : UInt64 := o &&& ~~~clear₁ &&& ~~~clear₂ ||| set

section Parse

variable (k : Kernel)

/-- `match_token` with `tokens`. -/
def matchToken (p : List Char) : Token × List Char :=
  (tokens.findSome? fun (token, pattern) => (k.matchOne p pattern).map (token, ·)).getD (.err, [])

/-- An option with a number. -/
def withInt (num : Option Int32) (m : Options) (set : Int32 → Options) :
    Option Refusal × Options :=
  match num with
  | none => (some .badVal, m)
  | some option => (none, set option)

/-- A turn of the loop of `pmfs_parse_options`, with the option `p`. -/
def parseOption (remount : Bool) (p : List Char) (m : Options) : Option Refusal × Options :=
  match matchToken k p with
  | (.bpi, arg) =>
    if remount then (some .badOpt, m)
    else withInt (k.matchInt arg) m fun v => { m with bpi := v.toInt64.toUInt64 }
  | (.uid, arg) =>
    if remount then (some .badOpt, m)
    else withInt (k.matchInt arg) m fun v => { m with uid := k.makeKuid v }
  | (.gid, arg) => withInt (k.matchInt arg) m fun v => { m with gid := k.makeKgid v }
  | (.mode, arg) =>
    withInt (k.matchOctal arg) m fun v => { m with mode := (v.toUInt32 &&& 0x3FF).toUInt16 }
  | (.init, _) =>
    if remount then (some .badOpt, m)
    else (none, { m with sMountOpt := m.sMountOpt ||| mountFormat })
  | (.jsize, arg) =>
    if remount then (some .badOpt, m)
    else if !(arg.headD ' ').isDigit then (some .badVal, m)
    else
      let jsize := (k.memparse arg).toUInt32
      let m := { m with jsize := jsize }
      if jsize &&& (jsize - 1) ≠ 0 ∨ jsize < minimumJournalSize then (some .badVal, m)
      else (none, m)
  | (.numInodes, arg) =>
    if remount then (some .badOpt, m)
    else withInt (k.matchInt arg) m fun v => { m with numInodes := v.toInt64.toUInt64 }
  | (.errPanic, _) => (none, { m with
      sMountOpt := errorsOpt mountErrorsCont mountErrorsRo mountErrorsPanic m.sMountOpt })
  | (.errRo, _) => (none, { m with
      sMountOpt := errorsOpt mountErrorsCont mountErrorsPanic mountErrorsRo m.sMountOpt })
  | (.errCont, _) => (none, { m with
      sMountOpt := errorsOpt mountErrorsRo mountErrorsPanic mountErrorsCont m.sMountOpt })
  | (.wprotect, _) =>
    if remount then (some .badOpt, m)
    else (none, { m with sMountOpt := m.sMountOpt ||| mountProtect })
  | (.wprotectold, _) =>
    if remount then (some .badOpt, m)
    else (none, { m with sMountOpt := m.sMountOpt ||| mountProtectOld })
  | (.hugemmap, _) =>
    if remount then (some .badOpt, m)
    else (none, { m with sMountOpt := m.sMountOpt ||| mountHugemmap })
  | (.nohugeioremap, _) =>
    if remount then (some .badOpt, m)
    else (none, { m with sMountOpt := m.sMountOpt &&& ~~~mountHugeioremap })
  | (.dbgmask, arg) => withInt (k.matchInt arg) m fun v => { m with dbgmask := v.toUInt32 }
  | (.tracemask, arg) => withInt (k.matchInt arg) m fun v => { m with tracemask := v.toUInt32 }
  | (.vmap, _) => (none, { m with vmapEnabled := true })
  | (.wlsw, arg) => withInt (k.matchInt arg) m fun v => { m with wlSwitch := v }
  | (.alloc, arg) =>
    match (k.matchInt arg).bind wpmfsSelectAllocator with
    | none => (some .badVal, m)
    | some a => (none, { m with allocator := a })
  | (.intThres, arg) =>
    match k.matchInt arg with
    | none => (some .badVal, m)
    | some v =>
      if v < 12 then (some .badVal, m)
      else (none, { m with intThresPower := v.toInt64.toUInt64 })
  | (.cellEndur, arg) =>
    withInt (k.matchInt arg) m fun v => { m with cellEndurPower := v.toInt64.toUInt64 }
  | (.bs, _) => (some .badOpt, m)
  | (.err, _) => (some .badOpt, m)

/-- The loop of `pmfs_parse_options`, on what `strsep` finds between the commas. -/
def parseLoop (remount : Bool) : List (List Char) → Options → Option Refusal × Options
  | [], m => (none, m)
  | p :: ps, m =>
    if p = [] then parseLoop remount ps m
    else
      match parseOption k remount p m with
      | (none, m) => parseLoop remount ps m
      | (some bad, m) => (some bad, m)

/-- What `strsep` finds in the options. -/
def optionTexts (options : Option (List Char)) : List (List Char) :=
  match options with
  | none => []
  | some options => options.splitOn ','

/-- `pmfs_parse_options`. -/
def pmfsParseOptions (options : Option (List Char)) (m : Options) (remount : Bool) :
    Option Refusal × Options :=
  parseLoop k remount (optionTexts options) m

/-- `pmfs_remount` at the time `seconds`: what it returns, and what it leaves. -/
def pmfsRemount (mntflags : UInt64) (data : Option (List Char)) (seconds : UInt32) (m : Options) :
    Int × Options :=
  match pmfsParseOptions k data m true with
  | (some _, t) => (-einval, { t with sFlags := m.sFlags, sMountOpt := m.sMountOpt })
  | (none, t) =>
    let t := { t with
      sFlags := t.sFlags &&& ~~~msPosixacl |||
        (if t.sMountOpt &&& mountPosixAcl ≠ 0 then msPosixacl else 0) }
    if mntflags &&& msRdonly ≠ t.sFlags &&& msRdonly then
      (0, { t with sMtime := seconds, sWtime := seconds })
    else (0, t)

end Parse

/-- A remount keeps what the file system is built on, and a refused one keeps everything. -/
structure Harmless (m : Options) (r : Int × Options) : Prop where
  allocator : r.2.allocator = m.allocator
  vmapEnabled : r.2.vmapEnabled = m.vmapEnabled
  jsize : r.2.jsize = m.jsize
  refused : r.1 ≠ 0 → r.2 = m

/-! ## What options set at a remount -/

/-- What an option sets that a remount accepts. -/
structure Setting where
  gid : Option UInt32 := none
  mode : Option UInt16 := none
  vmapEnabled : Option Bool := none
  allocator : Option Allocator := none
  wlSwitch : Option Int32 := none
  intThresPower : Option UInt64 := none
  cellEndurPower : Option UInt64 := none
  dbgmask : Option UInt32 := none
  tracemask : Option UInt32 := none
  sMountOpt : UInt64 → UInt64 := id

def Setting.apply (m : Options) (s : Setting) : Options :=
  { m with
    gid := s.gid.getD m.gid
    mode := s.mode.getD m.mode
    vmapEnabled := s.vmapEnabled.getD m.vmapEnabled
    allocator := s.allocator.getD m.allocator
    wlSwitch := s.wlSwitch.getD m.wlSwitch
    intThresPower := s.intThresPower.getD m.intThresPower
    cellEndurPower := s.cellEndurPower.getD m.cellEndurPower
    dbgmask := s.dbgmask.getD m.dbgmask
    tracemask := s.tracemask.getD m.tracemask
    sMountOpt := s.sMountOpt m.sMountOpt }

/-- What the option `p` sets; `none` is an option that a remount refuses. -/
def setting (k : Kernel) (p : List Char) : Option Setting :=
  match matchToken k p with
  | (.gid, arg) => (k.matchInt arg).map fun v => { gid := some (k.makeKgid v) }
  | (.mode, arg) =>
    (k.matchOctal arg).map fun v => { mode := some (v.toUInt32 &&& 0x3FF).toUInt16 }
  | (.errPanic, _) =>
    some { sMountOpt := errorsOpt mountErrorsCont mountErrorsRo mountErrorsPanic }
  | (.errRo, _) => some { sMountOpt := errorsOpt mountErrorsCont mountErrorsPanic mountErrorsRo }
  | (.errCont, _) => some { sMountOpt := errorsOpt mountErrorsRo mountErrorsPanic mountErrorsCont }
  | (.dbgmask, arg) => (k.matchInt arg).map fun v => { dbgmask := some v.toUInt32 }
  | (.tracemask, arg) => (k.matchInt arg).map fun v => { tracemask := some v.toUInt32 }
  | (.vmap, _) => some { vmapEnabled := some true }
  | (.wlsw, arg) => (k.matchInt arg).map fun v => { wlSwitch := some v }
  | (.alloc, arg) =>
    ((k.matchInt arg).bind wpmfsSelectAllocator).map fun a => { allocator := some a }
  | (.intThres, arg) =>
    (k.matchInt arg).bind fun v =>
      if v < 12 then none else some { intThresPower := some v.toInt64.toUInt64 }
  | (.cellEndur, arg) =>
    (k.matchInt arg).map fun v => { cellEndurPower := some v.toInt64.toUInt64 }
  | _ => none

/-- The settings up to the first option that is refused, and whether there is one. -/
def settings (k : Kernel) : List (List Char) → List Setting × Bool
  | [] => ([], false)
  | p :: ps =>
    if p = [] then settings k ps
    else
      match setting k p with
      | none => ([], true)
      | some s => (s :: (settings k ps).1, (settings k ps).2)

/-- The last of the settings of one kind. -/
def last {β : Type} (ss : List Setting) (field : Setting → Option β) : Option β :=
  (ss.filterMap field).getLast?

/-- Nothing is set, in the end, that was not so before: of the allocator and `vmap`, and when an
option is refused, of everything. -/
structure Settled (m : Options) (ss : List Setting) (refused : Bool) : Prop where
  allocator : ∀ v ∈ last ss Setting.allocator, v = m.allocator
  vmapEnabled : ∀ v ∈ last ss Setting.vmapEnabled, v = m.vmapEnabled
  gid : refused = true → ∀ v ∈ last ss Setting.gid, v = m.gid
  mode : refused = true → ∀ v ∈ last ss Setting.mode, v = m.mode
  wlSwitch : refused = true → ∀ v ∈ last ss Setting.wlSwitch, v = m.wlSwitch
  intThresPower : refused = true → ∀ v ∈ last ss Setting.intThresPower, v = m.intThresPower
  cellEndurPower : refused = true → ∀ v ∈ last ss Setting.cellEndurPower, v = m.cellEndurPower
  dbgmask : refused = true → ∀ v ∈ last ss Setting.dbgmask, v = m.dbgmask
  tracemask : refused = true → ∀ v ∈ last ss Setting.tracemask, v = m.tracemask

section

variable {k : Kernel} {m t : Options} {p : List Char} {ps : List (List Char)} {ss : List Setting}
variable {s : Setting} {β : Type} {x : β} {o : Option β}

theorem getD_eq_iff : o.getD x = x ↔ ∀ v ∈ o, v = x := by
  cases o <;> simp

/-- Of what is set one after the other, the last stays. -/
theorem foldl_apply (f : Options → β) (field : Setting → Option β)
    (h : ∀ m s, f (Setting.apply m s) = (field s).getD (f m)) :
    f (ss.foldl Setting.apply m) = (last ss field).getD (f m) := by
  induction ss generalizing m with
  | nil => rfl
  | cons s ss ih =>
    rw [List.foldl_cons, ih, h]
    cases hfield : field s with
    | none => simp [last, hfield]
    | some v =>
      simp only [last, List.filterMap_cons, hfield, List.getLast?_cons, Option.getD_some]

/-- What no setting is about stays. -/
theorem foldl_apply_same (f : Options → β) (h : ∀ m s, f (Setting.apply m s) = f m) :
    f (ss.foldl Setting.apply m) = f m := by
  induction ss generalizing m with
  | nil => rfl
  | cons s ss ih => rw [List.foldl_cons, ih, h]

/-- An option with a number is refused for its number, or it takes effect. -/
theorem withInt_cases {num : Option Int32} {set : Int32 → Options} (made : Int32 → Setting)
    (hset : ∀ v, set v = Setting.apply m (made v)) :
    (num.map made = none ∧ ∃ bad, withInt num m set = (some bad, m)) ∨
      ∃ s, num.map made = some s ∧ withInt num m set = (none, Setting.apply m s) := by
  cases num with
  | none => exact .inl ⟨rfl, .badVal, rfl⟩
  | some v => exact .inr ⟨made v, rfl, by rw [withInt, hset]⟩

/-- The option `p` is refused, or takes effect. -/
theorem parseOption_remount (k : Kernel) (p : List Char) (m : Options) :
    (setting k p = none ∧ ∃ bad, parseOption k true p m = (some bad, m)) ∨
      ∃ s, setting k p = some s ∧ parseOption k true p m = (none, Setting.apply m s) := by
  unfold setting parseOption
  obtain ⟨token, arg⟩ := matchToken k p
  cases token with
  | gid | dbgmask | tracemask | wlsw | cellEndur | mode => exact withInt_cases _ fun v => rfl
  | alloc =>
    dsimp only
    cases (k.matchInt arg).bind wpmfsSelectAllocator with
    | none => exact .inl ⟨rfl, .badVal, rfl⟩
    | some a => exact .inr ⟨_, rfl, rfl⟩
  | intThres =>
    dsimp only
    cases k.matchInt arg with
    | none => exact .inl ⟨rfl, .badVal, rfl⟩
    | some v =>
      dsimp only [Option.bind_some]
      split
      · exact .inl ⟨rfl, .badVal, rfl⟩
      · exact .inr ⟨_, rfl, rfl⟩
  | errCont | errPanic | errRo | vmap => exact .inr ⟨_, rfl, rfl⟩
  | _ => exact .inl ⟨rfl, .badOpt, rfl⟩

/-- The loop applies the settings until an option is refused. -/
theorem parseLoop_remount (k : Kernel) (ps : List (List Char)) (m : Options) :
    ∃ bad, parseLoop k true ps m = (bad, (settings k ps).1.foldl Setting.apply m) ∧
      bad.isSome = (settings k ps).2 := by
  induction ps generalizing m with
  | nil => exact ⟨none, rfl, rfl⟩
  | cons p ps ih =>
    unfold parseLoop settings
    split
    · exact ih m
    · rcases parseOption_remount k p m with ⟨hnone, bad, hparse⟩ | ⟨s, hsome, hparse⟩
      · rw [hnone, hparse]
        exact ⟨some bad, rfl, rfl⟩
      · rw [hsome, hparse]
        exact ih (Setting.apply m s)

/-- After the settings, what is of one kind is as before if the last of them sets it so. -/
theorem foldl_apply_eq_iff (f : Options → β) (field : Setting → Option β)
    (h : ∀ m s, f (Setting.apply m s) = (field s).getD (f m)) :
    f (ss.foldl Setting.apply m) = f m ↔ ∀ v ∈ last ss field, v = f m := by
  rw [foldl_apply f field h, getD_eq_iff]

/-- A remount that accepts its options. -/
theorem harmless_accepted_iff {r : Int × Options} (hzero : r.1 = 0)
    (hallocator : r.2.allocator = (ss.foldl Setting.apply m).allocator)
    (hvmap : r.2.vmapEnabled = (ss.foldl Setting.apply m).vmapEnabled)
    (hjsize : r.2.jsize = (ss.foldl Setting.apply m).jsize) :
    Harmless m r ↔ Settled m ss false := by
  have hallocator' := @foldl_apply_eq_iff m ss _ (·.allocator) (·.allocator) fun m s => rfl
  have hvmap' := @foldl_apply_eq_iff m ss _ (·.vmapEnabled) (·.vmapEnabled) fun m s => rfl
  constructor
  · intro h
    exact ⟨hallocator'.1 (hallocator.symm.trans h.allocator),
      hvmap'.1 (hvmap.symm.trans h.vmapEnabled), nofun, nofun, nofun, nofun, nofun, nofun, nofun⟩
  · intro h
    exact ⟨hallocator.trans (hallocator'.2 h.allocator), hvmap.trans (hvmap'.2 h.vmapEnabled),
      hjsize.trans (foldl_apply_same (·.jsize) fun m s => rfl), fun hne => absurd hzero hne⟩

/-- A remount that refuses an option after the settings. -/
theorem harmless_refused_iff : Harmless m (-einval, { ss.foldl Setting.apply m with
      sFlags := m.sFlags, sMountOpt := m.sMountOpt }) ↔ Settled m ss true := by
  have hallocator := @foldl_apply_eq_iff m ss _ (·.allocator) (·.allocator) fun m s => rfl
  have hvmap := @foldl_apply_eq_iff m ss _ (·.vmapEnabled) (·.vmapEnabled) fun m s => rfl
  have hgid := @foldl_apply_eq_iff m ss _ (·.gid) (·.gid) fun m s => rfl
  have hmode := @foldl_apply_eq_iff m ss _ (·.mode) (·.mode) fun m s => rfl
  have hwlsw := @foldl_apply_eq_iff m ss _ (·.wlSwitch) (·.wlSwitch) fun m s => rfl
  have hthres := @foldl_apply_eq_iff m ss _ (·.intThresPower) (·.intThresPower) fun m s => rfl
  have hendur := @foldl_apply_eq_iff m ss _ (·.cellEndurPower) (·.cellEndurPower) fun m s => rfl
  have hdbgmask := @foldl_apply_eq_iff m ss _ (·.dbgmask) (·.dbgmask) fun m s => rfl
  have htracemask := @foldl_apply_eq_iff m ss _ (·.tracemask) (·.tracemask) fun m s => rfl
  constructor
  · intro h
    have hsame := Options.ext_iff.1 (h.refused (show -einval ≠ 0 by decide))
    obtain ⟨-, -, -, -, -, -, hg, hm, hv, ha, hw, hi, hc, hd, ht, -, -⟩ := hsame
    exact ⟨hallocator.1 ha, hvmap.1 hv, fun _ => hgid.1 hg, fun _ => hmode.1 hm,
      fun _ => hwlsw.1 hw, fun _ => hthres.1 hi, fun _ => hendur.1 hc, fun _ => hdbgmask.1 hd,
      fun _ => htracemask.1 ht⟩
  · intro h
    have hsame : { ss.foldl Setting.apply m with
        sFlags := m.sFlags, sMountOpt := m.sMountOpt } = m :=
      Options.ext rfl rfl (foldl_apply_same (·.bpi) fun m s => rfl)
        (foldl_apply_same (·.numInodes) fun m s => rfl)
        (foldl_apply_same (·.jsize) fun m s => rfl) (foldl_apply_same (·.uid) fun m s => rfl)
        (hgid.2 (h.gid rfl)) (hmode.2 (h.mode rfl)) (hvmap.2 h.vmapEnabled)
        (hallocator.2 h.allocator) (hwlsw.2 (h.wlSwitch rfl)) (hthres.2 (h.intThresPower rfl))
        (hendur.2 (h.cellEndurPower rfl)) (hdbgmask.2 (h.dbgmask rfl))
        (htracemask.2 (h.tracemask rfl)) (foldl_apply_same (·.sMtime) fun m s => rfl)
        (foldl_apply_same (·.sWtime) fun m s => rfl)
    rw [hsame]
    exact ⟨rfl, rfl, rfl, fun _ => rfl⟩

/-- A remount does no harm just when the options that take effect set nothing new of what is to
stay. -/
theorem pmfsRemount_harmless_iff (k : Kernel) (mntflags : UInt64) (data : Option (List Char))
    (seconds : UInt32) (m : Options) :
    Harmless m (pmfsRemount k mntflags data seconds m) ↔
      Settled m (settings k (optionTexts data)).1 (settings k (optionTexts data)).2 := by
  obtain ⟨bad, hparse, hbad⟩ := parseLoop_remount k (optionTexts data) m
  rw [← hbad, pmfsRemount, pmfsParseOptions, hparse]
  cases bad with
  | none =>
    refine harmless_accepted_iff ?_ ?_ ?_ ?_
    all_goals
      dsimp only
      split_ifs <;> rfl
  | some bad => exact harmless_refused_iff

/-- `match_one` for patterns without an argument, and numbers that are not read. -/
def plainKernel : Kernel where
  matchOne p pattern := if p = pattern then some [] else none
  matchInt _ := none
  matchOctal _ := none
  memparse _ := 0
  makeKuid _ := 0
  makeKgid _ := 0

/-- What the default options are. -/
def defaultOptions : Options :=
  ⟨0, 0x118, 0, 0, 0x400000, 0, 0, 0o755, false, .pmfs, 0, 17, 20, 0, 0, 0, 0⟩

/-- The option `vmap` at a remount of a file system that was mounted without it. -/
theorem not_harmless_vmap : ¬∀ (k : Kernel) (mntflags : UInt64) (data : Option (List Char))
    (seconds : UInt32) (m : Options), Harmless m (pmfsRemount k mntflags data seconds m) := by
  intro h
  have henabled := (h plainKernel 0 (some "vmap".toList) 0 defaultOptions).vmapEnabled
  exact absurd henabled (by decide)

end

end Wpmfs.Mount
