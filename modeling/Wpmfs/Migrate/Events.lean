import Mathlib.Algebra.Order.Ring.Int
import Mathlib.Algebra.Order.Ring.Nat
import Mathlib.Logic.Relation
import Wpmfs.Library.Fifo

/-!
# The queue of hot pages

A counter that crosses the threshold calls `wpmfs_int_top`, on any CPU and at any time. It puts the
page frame number into a `kfifo` and queues the work item whose function is `_int_bottom`. There is
one worker thread, so that `_int_bottom` does not run twice at the same time; it takes the numbers
out again until there are none.

A work item has a bit `pending`, which `queue_work` sets and the worker clears before it calls the
function. What `_wear_lerveling` does to a page is not modelled here.
-/

namespace Wpmfs.Migrate

open Fifo

/-- `struct int_ctrl`. The `kfifo` is the bytes in it. -/
structure IntCtrl where
  fsReady : Bool
  fsBdev : Option ℕ
  fifo : List UInt8
  wlSwitch : Int32

/-- The number of `unsigned long` that `_init_int` asks for. -/
def fifoSize : ℕ := 1 <<< 10

/-- `kfifo_in_spinlocked`. -/
def kfifoIn (c : IntCtrl) (pfn : UInt64) : ℕ × IntCtrl :=
  let (n, fifo) := put (fifoSize * 8) (word.encode pfn) c.fifo
  (n, { c with fifo })

/-- `_fetch_int_requests`. -/
def fetchIntRequests (c : IntCtrl) : Option UInt64 × IntCtrl :=
  let (l, fifo) := get 8 c.fifo
  (if l = [] then none else some (word.decode l), { c with fifo })

/-- Where a call of `wpmfs_int_top` is: before it looks at `fs_ready`, at `wl_switch`, before
`kfifo_in_spinlocked`, and before `queue_work`. -/
inductive IntTop where
  | entered (pfn : UInt64)
  | ready (pfn : UInt64)
  | enabled (pfn : UInt64)
  | enqueued
deriving DecidableEq

/-- Where the worker is: outside of `_int_bottom`, before `get_super`, before
`_fetch_int_requests`, and at the page that it took. -/
inductive IntBottom where
  | idle
  | entered
  | fetching
  | levelling (pfn : UInt64)
deriving DecidableEq

/-- The interrupt controller, the calls in progress, and the worker. Besides there is what has
happened: which numbers went into the queue, which ones were dealt with, and if `_int_bottom` gave
up on its last run without a super block, and was not queued since. -/
structure Events where
  ctrl : IntCtrl
  tops : List IntTop
  pending : Bool
  bottom : IntBottom
  accepted : List UInt64
  handled : List UInt64
  gaveUp : Bool

namespace Events

/-- `_init_int`. -/
def init (fsReady : Bool) (fsBdev : Option ℕ) (wlSwitch : Int32) : Events :=
  ⟨⟨fsReady, fsBdev, [], wlSwitch⟩, [], false, .idle, [], [], false⟩

/-- The number that the worker holds. -/
def inHand : IntBottom → List UInt64
  | .idle | .entered | .fetching => []
  | .levelling pfn => [pfn]

/-- The next part of a call of `wpmfs_int_top`, and where the call is then. -/
def intTop (e : Events) : IntTop → Option IntTop × Events
  | .entered pfn => (if e.ctrl.fsReady then some (.ready pfn) else none, e)
  | .ready pfn => (if e.ctrl.wlSwitch = 0 then none else some (.enabled pfn), e)
  | .enabled pfn =>
    let (n, ctrl) := kfifoIn e.ctrl pfn
    -- "kfifo for workqueue has full."
    if n = 0 then (none, { e with ctrl })
    else (some .enqueued, { e with ctrl, accepted := e.accepted ++ [pfn] })
  | .enqueued => (none, { e with pending := true, gaveUp := false })

/-- The next part of a run of `_int_bottom`, with the answer of `get_super`. -/
def intBottom (found : Bool) (e : Events) : Events :=
  match e.bottom with
  | .idle => if e.pending then { e with pending := false, bottom := .entered } else e
  | .entered =>
    -- "Cannot get super block"
    if found then { e with bottom := .fetching } else { e with bottom := .idle, gaveUp := true }
  | .fetching =>
    match fetchIntRequests e.ctrl with
    | (none, ctrl) => { e with ctrl, bottom := .idle }
    | (some pfn, ctrl) => { e with ctrl, bottom := .levelling pfn }
  | .levelling pfn => { e with bottom := .fetching, handled := e.handled ++ [pfn] }

/-- Something happens: a call of `wpmfs_int_top` begins or goes on, the worker goes on, or the file
system is set up: the two stores of `fs_now_ready`, those of `fs_now_removed`, and
`wpmfs_set_wl_switch`. There is no super block without a device. -/
inductive Step (e : Events) : Events → Prop
  | enter (pfn : UInt64) : Step e { e with tops := e.tops ++ [.entered pfn] }
  | top (l₁ l₂ : List IntTop) (t : IntTop) (h : e.tops = l₁ ++ t :: l₂) :
      Step e { (e.intTop t).2 with tops := l₁ ++ (e.intTop t).1.toList ++ l₂ }
  | bottom (found : Bool) (h : e.ctrl.fsBdev = none → found = false) : Step e (e.intBottom found)
  | setReady (fsReady : Bool) : Step e { e with ctrl.fsReady := fsReady }
  | setBdev (fsBdev : Option ℕ) : Step e { e with ctrl.fsBdev := fsBdev }
  | setSwitch (wlSwitch : Int32) : Step e { e with ctrl.wlSwitch := wlSwitch }

abbrev Reaches : Events → Events → Prop := Relation.ReflTransGen Step

/-- The steps that deal with what is in the queue: those of a worker that finds the super block, and
the end of a call that queues the work. -/
inductive Work (e : Events) : Events → Prop
  | bottom (hbdev : e.ctrl.fsBdev ≠ none) : Work e (e.intBottom true)
  | queue (l₁ l₂ : List IntTop) (h : e.tops = l₁ ++ .enqueued :: l₂) :
      Work e { (e.intTop .enqueued).2 with tops := l₁ ++ [] ++ l₂ }

abbrev Works : Events → Events → Prop := Relation.ReflTransGen Work

/-- What is so at any time, with the numbers that wait. -/
structure Inv (waiting : List UInt64) (e : Events) : Prop where
  holds : word.Holds e.ctrl.fifo waiting
  fits : waiting.length ≤ fifoSize
  order : e.accepted = e.handled ++ inHand e.bottom ++ waiting
  awake : waiting ≠ [] → e.pending ∨ e.bottom ≠ .idle ∨ .enqueued ∈ e.tops ∨ e.gaveUp

/-- Hot pages are served in order. All numbers that went in have come out, are held by the worker,
or wait, whole, in the order in which they went in. One more is turned away only if 1024 wait. And
unless `_int_bottom` gave up, the worker will get at all that has gone in, without another call. -/
structure Serves (e : Events) : Prop where
  order : ∃ waiting, word.Holds e.ctrl.fifo waiting ∧
    e.accepted = e.handled ++ inHand e.bottom ++ waiting ∧
    ∀ pfn, (kfifoIn e.ctrl pfn).1 = 0 ↔ waiting.length = fifoSize
  served : e.gaveUp = false → e.ctrl.fsBdev ≠ none →
    ∃ e', Works e e' ∧ Reaches e e' ∧ e'.accepted = e.accepted ∧ e'.handled = e.accepted

variable {e e' : Events} {waiting : List UInt64} {pfn : UInt64} {t : IntTop}
  {l₁ l₂ : List IntTop} {found fsReady : Bool} {fsBdev : Option ℕ} {wlSwitch : Int32}

theorem inv_init : Inv [] (init fsReady fsBdev wlSwitch) :=
  ⟨Record.holds_nil, Nat.zero_le _, rfl, fun h => absurd rfl h⟩

/-! ## The queue -/

theorem kfifoIn_spec (hinv : Inv waiting e) (pfn : UInt64) :
    (waiting.length < fifoSize ∧ ∃ q, kfifoIn e.ctrl pfn = (8, { e.ctrl with fifo := q }) ∧
      word.Holds q (waiting ++ [pfn])) ∨
    (waiting.length = fifoSize ∧ kfifoIn e.ctrl pfn = (0, e.ctrl)) := by
  rcases hinv.holds.put hinv.fits pfn with ⟨hlt, hn, hq⟩ | ⟨heq, hput⟩
  · exact .inl ⟨hlt, _, Prod.ext hn rfl, hq⟩
  · exact .inr ⟨heq, by rw [kfifoIn, hput]⟩

theorem fetchIntRequests_nil (hinv : Inv [] e) : fetchIntRequests e.ctrl = (none, e.ctrl) := by
  have hq : e.ctrl.fifo = [] := (hinv.holds.nil_iff (by decide)).mpr rfl
  have hget : get 8 e.ctrl.fifo = ([], e.ctrl.fifo) := by
    rw [hq]
    rfl
  rw [fetchIntRequests, hget]
  rfl

theorem fetchIntRequests_cons (hinv : Inv (pfn :: waiting) e) :
    ∃ q, fetchIntRequests e.ctrl = (some pfn, { e.ctrl with fifo := q }) ∧
      word.Holds q waiting := by
  obtain ⟨hl, hq⟩ := hinv.holds.get
  have hne : word.encode pfn ≠ [] := by
    intro hnil
    have hlength := word.length_encode pfn
    rw [hnil] at hlength
    cases hlength
  refine ⟨_, ?_, hq⟩
  rw [fetchIntRequests]
  dsimp only
  rw [hl, if_neg hne, word.decode_encode]

/-! ## Steps -/

/-- Calls come and go, except those that are about to queue the work. -/
theorem Inv.of_tops (hinv : Inv waiting e)
    (hkeep : .enqueued ∈ e.tops → IntTop.enqueued ∈ l₁) : Inv waiting { e with tops := l₁ } := by
  refine ⟨hinv.holds, hinv.fits, hinv.order, fun hne => ?_⟩
  rcases hinv.awake hne with h | h | h | h
  · exact .inl h
  · exact .inr (.inl h)
  · exact .inr (.inr (.inl (hkeep h)))
  · exact .inr (.inr (.inr h))

theorem enqueued_mem_of_ne {o : Option IntTop} (htops : e.tops = l₁ ++ t :: l₂)
    (ht : t ≠ .enqueued) (h : .enqueued ∈ e.tops) : IntTop.enqueued ∈ l₁ ++ o.toList ++ l₂ := by
  rw [htops, List.mem_append, List.mem_cons] at h
  rw [List.mem_append, List.mem_append]
  rcases h with h | h | h
  · exact .inl (.inl h)
  · exact absurd h.symm ht
  · exact .inr h

theorem Inv.top (hinv : Inv waiting e) (htops : e.tops = l₁ ++ t :: l₂) :
    ∃ waiting', Inv waiting' { (e.intTop t).2 with tops := l₁ ++ (e.intTop t).1.toList ++ l₂ } := by
  cases t with
  | entered pfn => exact ⟨waiting, hinv.of_tops (enqueued_mem_of_ne htops (by simp))⟩
  | ready pfn => exact ⟨waiting, hinv.of_tops (enqueued_mem_of_ne htops (by simp))⟩
  | enqueued => exact ⟨waiting, hinv.holds, hinv.fits, hinv.order, fun _ => .inl rfl⟩
  | enabled pfn =>
    rw [intTop]
    rcases kfifoIn_spec hinv pfn with ⟨hlt, q, hin, hq⟩ | ⟨-, hin⟩
    · rw [hin]
      refine ⟨waiting ++ [pfn], hq, ?_, ?_, fun _ => .inr (.inr (.inl ?_))⟩
      · rw [List.length_append]
        exact hlt
      · exact (congrArg (· ++ [pfn]) hinv.order).trans (List.append_assoc ..)
      · simp
    · rw [hin]
      exact ⟨waiting, hinv.of_tops (enqueued_mem_of_ne htops (by simp))⟩

theorem Inv.bottom (hinv : Inv waiting e) (found : Bool) :
    ∃ waiting', Inv waiting' (e.intBottom found) := by
  obtain ⟨ctrl, tops, pending, bottom, accepted, handled, gaveUp⟩ := e
  cases bottom with
  | idle =>
    cases pending with
    | false => exact ⟨waiting, hinv⟩
    | true =>
      exact ⟨waiting, hinv.holds, hinv.fits, hinv.order, fun _ => .inr (.inl (by simp [intBottom]))⟩
  | entered =>
    cases found with
    | false =>
      exact ⟨waiting, hinv.holds, hinv.fits, hinv.order, fun _ => .inr (.inr (.inr rfl))⟩
    | true =>
      exact ⟨waiting, hinv.holds, hinv.fits, hinv.order, fun _ => .inr (.inl (by simp [intBottom]))⟩
  | fetching =>
    cases waiting with
    | nil =>
      refine ⟨[], ?_⟩
      rw [intBottom, fetchIntRequests_nil hinv]
      exact ⟨hinv.holds, hinv.fits, hinv.order, fun h => absurd rfl h⟩
    | cons pfn waiting =>
      obtain ⟨q, hfetch, hq⟩ := fetchIntRequests_cons hinv
      refine ⟨waiting, ?_⟩
      rw [intBottom, hfetch]
      refine ⟨hq, (Nat.le_succ _).trans hinv.fits, ?_, fun _ => .inr (.inl (by simp))⟩
      rw [hinv.order, inHand, inHand, List.append_nil, List.append_assoc, List.singleton_append]
  | levelling pfn =>
    refine ⟨waiting, hinv.holds, hinv.fits, ?_, fun _ => .inr (.inl (by simp [intBottom]))⟩
    exact hinv.order.trans (congrArg (· ++ waiting) (List.append_nil _).symm)

theorem Step.inv (hstep : Step e e') (hinv : Inv waiting e) : ∃ waiting', Inv waiting' e' := by
  cases hstep with
  | enter pfn => exact ⟨waiting, hinv.of_tops fun h => List.mem_append_left _ h⟩
  | top l₁ l₂ t htops => exact hinv.top htops
  | bottom found _ => exact hinv.bottom found
  | setReady | setBdev | setSwitch =>
    exact ⟨waiting, hinv.holds, hinv.fits, hinv.order, hinv.awake⟩

theorem Reaches.inv (hrun : Reaches (init fsReady fsBdev wlSwitch) e) :
    ∃ waiting, Inv waiting e := by
  induction hrun with
  | refl => exact ⟨[], inv_init⟩
  | tail _ hstep ih =>
    obtain ⟨waiting, hinv⟩ := ih
    exact hstep.inv hinv

/-! ## What waits can be dealt with -/

theorem Work.step (h : Work e e') : Step e e' := by
  cases h with
  | bottom hbdev => exact .bottom true fun h => absurd h hbdev
  | queue l₁ l₂ htops => exact .top l₁ l₂ _ htops

theorem works_bottom (hbdev : e.ctrl.fsBdev ≠ none) (hnext : e.intBottom true = e') :
    Works e e' := by
  rw [← hnext]
  exact .single (.bottom hbdev)

/-- The loop of `_int_bottom` empties the queue. -/
theorem Inv.fetching (hinv : Inv waiting e) (hbdev : e.ctrl.fsBdev ≠ none)
    (hbottom : e.bottom = .fetching) :
    ∃ e', Works e e' ∧ e'.accepted = e.accepted ∧ e'.handled = e.accepted := by
  induction waiting generalizing e with
  | nil =>
    refine ⟨e, .refl, rfl, ?_⟩
    rw [hinv.order, hbottom, inHand, List.append_nil, List.append_nil]
  | cons pfn waiting ih =>
    obtain ⟨q, hfetch, hq⟩ := fetchIntRequests_cons hinv
    have hfirst : e.intBottom true =
        { e with ctrl.fifo := q, bottom := .levelling pfn } := by
      rw [intBottom, hbottom]
      dsimp only
      rw [hfetch]
    have hinv' : Inv waiting
        { e with ctrl.fifo := q, bottom := .fetching, handled := e.handled ++ [pfn] } := by
      refine ⟨hq, (Nat.le_succ _).trans hinv.fits, ?_, fun _ => .inr (.inl (by simp))⟩
      rw [hinv.order, hbottom, inHand, List.append_nil, List.append_nil, List.append_assoc,
        List.singleton_append]
    obtain ⟨e', hrun, haccepted, hhandled⟩ := ih hinv' hbdev rfl
    have hturn : Works e
        { e with ctrl.fifo := q, bottom := .fetching, handled := e.handled ++ [pfn] } :=
      (works_bottom hbdev hfirst).trans (works_bottom hbdev rfl)
    exact ⟨e', hturn.trans hrun, haccepted, hhandled⟩

/-- A worker that runs, or that is going to. -/
theorem Inv.running (hinv : Inv waiting e) (hbdev : e.ctrl.fsBdev ≠ none)
    (hwork : e.pending ∨ e.bottom ≠ .idle) :
    ∃ e', Works e e' ∧ e'.accepted = e.accepted ∧ e'.handled = e.accepted := by
  have hentered : ∀ {e : Events} {waiting : List UInt64}, Inv waiting e → e.ctrl.fsBdev ≠ none →
      e.bottom = .entered →
      ∃ e', Works e e' ∧ e'.accepted = e.accepted ∧ e'.handled = e.accepted := by
    intro e waiting hinv hbdev hbottom
    have hnext : e.intBottom true = { e with bottom := .fetching } := by
      rw [intBottom, hbottom]
      rfl
    have hinv' : Inv waiting { e with bottom := .fetching } := by
      refine ⟨hinv.holds, hinv.fits, ?_, fun _ => .inr (.inl (by simp))⟩
      rw [hinv.order, hbottom]
      rfl
    obtain ⟨e', hrun, h⟩ := hinv'.fetching hbdev rfl
    exact ⟨e', (works_bottom hbdev hnext).trans hrun, h⟩
  cases hbottom : e.bottom with
  | fetching => exact hinv.fetching hbdev hbottom
  | entered => exact hentered hinv hbdev hbottom
  | idle =>
    have hpending : e.pending = true := hwork.resolve_right fun h => h hbottom
    have hnext : e.intBottom true = { e with pending := false, bottom := .entered } := by
      rw [intBottom, hbottom]
      dsimp only
      rw [if_pos hpending]
    have hinv' : Inv waiting { e with pending := false, bottom := .entered } := by
      refine ⟨hinv.holds, hinv.fits, ?_, fun _ => .inr (.inl (by simp))⟩
      rw [hinv.order, hbottom]
      rfl
    obtain ⟨e', hrun, h⟩ := hentered hinv' hbdev rfl
    exact ⟨e', (works_bottom hbdev hnext).trans hrun, h⟩
  | levelling pfn =>
    have hnext : e.intBottom true =
        { e with bottom := .fetching, handled := e.handled ++ [pfn] } := by
      rw [intBottom, hbottom]
    have hinv' : Inv waiting { e with bottom := .fetching, handled := e.handled ++ [pfn] } := by
      refine ⟨hinv.holds, hinv.fits, ?_, fun _ => .inr (.inl (by simp))⟩
      rw [hinv.order, hbottom]
      simp [inHand]
    obtain ⟨e', hrun, h⟩ := hinv'.fetching hbdev rfl
    exact ⟨e', (works_bottom hbdev hnext).trans hrun, h⟩

theorem Inv.served (hinv : Inv waiting e) (hkept : e.gaveUp = false)
    (hbdev : e.ctrl.fsBdev ≠ none) :
    ∃ e', Works e e' ∧ e'.accepted = e.accepted ∧ e'.handled = e.accepted := by
  by_cases hwork : e.pending ∨ e.bottom ≠ .idle
  · exact hinv.running hbdev hwork
  · rw [not_or, not_not] at hwork
    by_cases hne : waiting = []
    · refine ⟨e, .refl, rfl, ?_⟩
      rw [hinv.order, hne, hwork.2, inHand, List.append_nil, List.append_nil]
    · have htop : IntTop.enqueued ∈ e.tops := by
        rcases hinv.awake hne with h | h | h | h
        · exact absurd h hwork.1
        · exact absurd hwork.2 h
        · exact h
        · rw [hkept] at h
          cases h
      obtain ⟨l₁, l₂, htops⟩ := List.append_of_mem htop
      have hinv' : Inv waiting
          { e with pending := true, gaveUp := false, tops := l₁ ++ [] ++ l₂ } :=
        ⟨hinv.holds, hinv.fits, hinv.order, fun _ => .inl rfl⟩
      obtain ⟨e', hrun, h⟩ := hinv'.running hbdev (.inl rfl)
      exact ⟨e', .head (.queue l₁ l₂ htops) hrun, h⟩

/-- Whatever the interleaving of the calls of `wpmfs_int_top`, of the worker, and of a mount, hot
pages are served in order. -/
theorem Reaches.serves (hrun : Reaches (init fsReady fsBdev wlSwitch) e) : e.Serves := by
  obtain ⟨waiting, hinv⟩ := hrun.inv
  refine ⟨⟨waiting, hinv.holds, hinv.order, fun pfn => ?_⟩, fun hkept hbdev => ?_⟩
  swap
  · obtain ⟨e', hworks, h⟩ := hinv.served hkept hbdev
    exact ⟨e', hworks, Relation.ReflTransGen.mono (fun _ _ => Work.step) _ _ hworks, h⟩
  rcases kfifoIn_spec hinv pfn with ⟨hlt, q, hin, -⟩ | ⟨heq, hin⟩
  · rw [hin]
    exact ⟨fun h => absurd (show (8 : ℕ) = 0 from h) (by decide), fun h => absurd h hlt.ne⟩
  · rw [hin]
    exact ⟨fun _ => heq, fun _ => rfl⟩

/-- A page gets hot between the two stores of `fs_now_ready`: the worker is woken and finds no super
block, and the number waits until another page gets hot. -/
def stranded : Events :=
  { init true none 1 with
    ctrl.fifo := word.encode 5, accepted := [5], gaveUp := true }

theorem serves_stranded : Reaches (init false none 1) stranded ∧ stranded.Serves ∧
    stranded.handled ≠ stranded.accepted := by
  have hrun : Reaches (init false none 1) stranded :=
    .head (.setReady true) <| .head (.enter 5) <|
      .head (.top [] [] (.entered 5) rfl) <|
      .head (.top [] [] (.ready 5) rfl) <|
      .head (.top [] [] (.enabled 5) rfl) <|
      .head (.top [] [] .enqueued rfl) <|
      .head (.bottom false fun _ => rfl) <|
      .single (.bottom false fun _ => rfl)
  exact ⟨hrun, hrun.serves, by decide⟩

end Events

end Wpmfs.Migrate
