import CAdvanced.CoroutineSchedule

/-!
# Where the coroutines are

In every run whose coroutines keep to a few rules, a coroutine that does not run
is in the ready queue, waits for a descriptor that the poller watches, or sleeps,
and no call of the scheduler faults.
-/

namespace CAdvanced

open Fallible
open Transition
open RedBlack

/-! ## Status words -/

section Status

variable {a b : Status} {x y : CoroutineStatus}

theorem has_or : Status.has (a ||| b) x = (a.has x || b.has x) := by
  have hmask : (a ||| b) &&& x.bit = 0 ↔
      a &&& x.bit = 0 ∧ b &&& x.bit = 0 := by
    rw [BitVec.and_or_distrib_right]
    exact BitVec.or_eq_zero_iff
  simp only [Status.has, ne_eq, hmask, not_and_or, Bool.decide_or]

theorem has_bit : Status.has y.bit x = decide (x = y) := by
  cases x <;> cases y <;> rfl

theorem has_zero : Status.has 0 x = false := by
  cases x <;> rfl

/-- Waiting for input leaves the status as it is. -/
theorem has_waitRead : Status.has CoroutineStatus.waitRead.value x = false := by
  cases x <;> rfl

/-- Waiting for output sets the bit of the input. -/
theorem has_waitWrite :
    Status.has CoroutineStatus.waitWrite.value x = decide (x = .waitRead) := by
  cases x <;> rfl

end Status

/-- The coroutine has started and not returned. -/
structure Status.Started (status : Status) : Prop where
  new : status.has .new = false
  exited : status.has .exited = false
  fdeof : status.has .fdeof = false

/-- It waits for nothing either. -/
structure Status.Runs (status : Status) : Prop extends Started status where
  waitRead : status.has .waitRead = false
  waitWrite : status.has .waitWrite = false

theorem runs_zero : Status.Runs 0 := ⟨⟨rfl, rfl, rfl⟩, rfl, rfl⟩

theorem Status.Runs.or_bit {status : Status} {y : CoroutineStatus}
    (h : status.Runs) (hy : y = .ready ∨ y = .sleeping ∨ y = .detach) :
    Status.Runs (status ||| y.bit) := by
  rcases hy with rfl | rfl | rfl <;>
    exact ⟨⟨by simp [has_or, has_bit, h.new],
      by simp [has_or, has_bit, h.exited],
      by simp [has_or, has_bit, h.fdeof]⟩,
      by simp [has_or, has_bit, h.waitRead],
      by simp [has_or, has_bit, h.waitWrite]⟩

theorem runs_ready : Status.Runs CoroutineStatus.ready.bit := by
  simpa using runs_zero.or_bit (.inl rfl)

/-- Whatever events a coroutine waits for, only one bit of its status can
change. -/
theorem Status.Runs.or_mask {status mask : Status} (h : status.Runs)
    (hmask : ∀ x, Status.has mask x = true → x = .waitRead) :
    Status.Started (status ||| mask) := by
  have hnot : ∀ x, x ≠ .waitRead → Status.has mask x = false := by
    intro x hx
    rw [Bool.eq_false_iff]
    exact fun hhas => hx (hmask x hhas)
  constructor
  · rw [has_or, h.new, hnot _ (by decide)]
    rfl
  · rw [has_or, h.exited, hnot _ (by decide)]
    rfl
  · rw [has_or, h.fdeof, hnot _ (by decide)]
    rfl

namespace Schedule

theorem exists_waitMask {events : BitVec 16}
    (h : events &&& pollIn ≠ 0 ∨ events &&& pollOut ≠ 0) :
    ∃ mask, waitMask events = some mask ∧
      ∀ x, Status.has mask x = true → x = .waitRead := by
  by_cases hin : events &&& pollIn ≠ 0
  · refine ⟨_, if_pos hin, ?_⟩
    intro x hx
    rw [has_waitRead] at hx
    cases hx
  · refine ⟨_, (if_neg hin).trans (if_pos (h.resolve_left hin)), ?_⟩
    intro x hx
    rw [has_waitWrite] at hx
    exact of_decide_eq_true hx

/-! ## The invariant -/

/-- The place of a live coroutine. -/
inductive At (s : Schedule) (co : Co) (c : Coroutine) : Prop
  | running (hcurr : s.currThread = some co) (hready : co ∉ s.ready)
      (hwaiting : co ∉ s.waiting) (hstatus : c.status.Runs)
  | queued (hcurr : s.currThread ≠ some co) (hready : co ∈ s.ready)
      (hwaiting : co ∉ s.waiting) (hsleeping : co ∉ s.sleeping)
      (hstatus : c.context = .entry ∧ c.status = CoroutineStatus.new.bit ∨
        c.context = .requeued ∧ c.status.Runs)
  | parked (hcurr : s.currThread ≠ some co) (hready : co ∉ s.ready)
      (hwaiting : co ∈ s.waiting) (hcontext : c.context = .polling c.fd)
      (hstatus : c.status.Started)
  | resting (hcurr : s.currThread ≠ some co) (hready : co ∉ s.ready)
      (hwaiting : co ∉ s.waiting) (hsleeping : co ∈ s.sleeping)
      (hcontext : c.context = .requeued) (hstatus : c.status.Runs)

/-- The moments at which the sleeping coroutines wake up.  What is left of an
earlier sleep in the record of a coroutine that is not asleep is past, and not
one of these moments. -/
structure Sleepers (s : Schedule) : Prop where
  sorted : SortedBy (sleepTree.keyOf s) s.sleeping
  positive : ∀ co ∈ s.sleeping, 0 < sleepTree.keyOf s co
  stale : ∀ co c, s.coroutine co = some c → co ∉ s.sleeping →
    c.sleepUsecs ≤ s.elapsed ∧
      ∀ co' ∈ s.sleeping, sleepTree.keyOf s co' ≠ c.sleepUsecs

/-- The events that are not handled yet. -/
structure Awaited (s : Schedule) : Prop where
  nodup : (s.eventlist.map PollEvent.fd).Nodup
  watched : ∀ ev ∈ s.eventlist, ev.fd ∈ s.poller
  phase : s.eventlist ≠ [] → s.phase = .dispatching

def live (s : Schedule) : Finset Co :=
  (Finset.range s.created).filter (fun co => (s.coroutine co).isSome)

/-- Every live coroutine has its place, and only live ones have one. -/
structure Places (s : Schedule) : Prop where
  placed : ∀ co c, s.coroutine co = some c → s.At co c
  ready : s.Linked s.ready
  waiting : s.Linked s.waiting
  sleeping : s.Linked s.sleeping
  curr : ∀ co ∈ s.currThread, (s.coroutine co).isSome

/-- The poller watches what the coroutines wait for, each of them for a
descriptor of its own. -/
structure Watches (s : Schedule) : Prop where
  sorted : SortedBy (waitTree.keyOf s) s.waiting
  poller : ∀ fd, fd ∈ s.poller ↔ ∃ co ∈ s.waiting, waitTree.keyOf s co = fd

structure Inv (s : Schedule) : Prop extends Places s where
  fresh : ∀ co, s.created ≤ co → s.coroutine co = none
  readyNodup : s.ready.Nodup
  watches : s.Watches
  sleepers : s.Sleepers
  spawned : s.spawned = s.live.card
  awaited : s.Awaited

/-- What the callers may do.  A coroutine polls an open descriptor that no
coroutine waits for, for input or output; it does not close one that is waited
for; it does not return, and does not enter the ready queue, before its sleep is
over, and it does not yield but to sleep; a moment to wake up is not beyond the
range of `uint64_t`; and the clock does not go back. -/
def Obeys (s : Schedule) : Action → Prop
  | .tick elapsed => s.elapsed ≤ elapsed
  | .sleep msecs => ∀ co ∈ s.currThread,
      if msecs = 0 then co ∉ s.sleeping
      else s.elapsed + msecs * 1000 + s.sleeping.length < 2 ^ 64
  | .renice => ∀ co ∈ s.currThread, ∀ c ∈ s.coroutine co,
      4 ≤ c.ops → co ∉ s.sleeping
  | .exit => ∀ co ∈ s.currThread, co ∉ s.sleeping
  | .yield => ∀ co ∈ s.currThread, co ∈ s.sleeping
  | .poll fd events => fd ∈ s.opened ∧ fd ∉ s.poller ∧
      (events &&& pollIn ≠ 0 ∨ events &&& pollOut ≠ 0)
  | .closeFd fd => fd ∉ s.poller
  | _ => True

instance (s : Schedule) : ∀ a, Decidable (s.Obeys a)
  | .tick _ => inferInstanceAs (Decidable (_ ≤ _))
  | .sleep msecs => inferInstanceAs (Decidable (∀ co ∈ s.currThread,
      if msecs = 0 then co ∉ s.sleeping
      else s.elapsed + msecs * 1000 + s.sleeping.length < 2 ^ 64))
  | .renice => inferInstanceAs (Decidable (∀ co ∈ s.currThread,
      ∀ c ∈ s.coroutine co, 4 ≤ c.ops → co ∉ s.sleeping))
  | .exit => inferInstanceAs (Decidable (∀ co ∈ s.currThread, co ∉ s.sleeping))
  | .yield => inferInstanceAs (Decidable (∀ co ∈ s.currThread, co ∈ s.sleeping))
  | .poll _ _ => inferInstanceAs (Decidable (_ ∧ _ ∧ (_ ∨ _)))
  | .closeFd _ => inferInstanceAs (Decidable (_ ∉ s.poller))
  | .run | .turn | .expire | .ready | .epoll _ | .dispatch | .create _
  | .detach | .openFd _ => inferInstanceAs (Decidable True)

theorem withCo_withCo (co : Co) (r r' : Option Coroutine) (s : Schedule) :
    withCo co r (withCo co r' s) = withCo co r s := by
  simp [withCo]

/-! ## Reading -/

section Reading

variable {s : Schedule} {co co' : Co} {c : Coroutine}

@[simp] theorem returns_deref (Q : Coroutine → Schedule → Prop) :
    Returns (deref co) s Q ↔ ∃ c, s.coroutine co = some c ∧ Q c s :=
  returns_load _ s Q

@[simp] theorem returns_change (f : Coroutine → Coroutine)
    (Q : Unit → Schedule → Prop) :
    Returns (change co f) s Q ↔
      ∃ c, s.coroutine co = some c ∧ Q () (withCo co (some (f c)) s) := by
  simp [change]

@[simp] theorem returns_traverse (nodes : Schedule → List Co)
    (Q : List Co → Schedule → Prop) :
    Returns (traverse nodes) s Q ↔ s.Linked (nodes s) ∧ Q (nodes s) s := by
  by_cases h : s.Linked (nodes s)
  · simp [traverse, h]
  · simp [traverse, h]

theorem keyOf_of_some {κ : Type} [Inhabited κ] (T : Tree κ)
    (h : s.coroutine co = some c) : T.keyOf s co = T.key c := by
  simp [Tree.keyOf, h]

theorem Linked.ne_dead {l : List Co} (h : s.Linked l)
    (hdead : s.coroutine co = none) : co ∉ l := by
  intro hco
  have := h co hco
  rw [hdead] at this
  cases this

theorem Inv.running (h : Inv s) (hcurr : s.currThread = some co) :
    ∃ c, s.coroutine co = some c ∧ co ∉ s.ready ∧ co ∉ s.waiting ∧
      c.status.Runs := by
  obtain ⟨c, hc⟩ := Option.isSome_iff_exists.mp (h.curr co hcurr)
  cases h.placed co c hc with
  | running _ hready hwaiting hstatus =>
      exact ⟨c, hc, hready, hwaiting, hstatus⟩
  | queued hne => exact absurd hcurr hne
  | parked hne => exact absurd hcurr hne
  | resting hne => exact absurd hcurr hne

theorem Inv.queued (h : Inv s) (hready : co ∈ s.ready) :
    ∃ c, s.coroutine co = some c ∧ s.currThread ≠ some co ∧
      co ∉ s.waiting ∧ co ∉ s.sleeping ∧
      (c.context = .entry ∧ c.status = CoroutineStatus.new.bit ∨
        c.context = .requeued ∧ c.status.Runs) := by
  obtain ⟨c, hc⟩ := Option.isSome_iff_exists.mp (h.ready co hready)
  cases h.placed co c hc with
  | running _ hnot => exact absurd hready hnot
  | queued hcurr _ hwaiting hsleeping hstatus =>
      exact ⟨c, hc, hcurr, hwaiting, hsleeping, hstatus⟩
  | parked _ hnot => exact absurd hready hnot
  | resting _ hnot => exact absurd hready hnot

theorem Inv.waiter (h : Inv s) (hwaiting : co ∈ s.waiting) :
    ∃ c, s.coroutine co = some c ∧ s.currThread ≠ some co ∧
      co ∉ s.ready ∧ c.context = .polling c.fd ∧ c.status.Started := by
  obtain ⟨c, hc⟩ := Option.isSome_iff_exists.mp (h.waiting co hwaiting)
  cases h.placed co c hc with
  | running _ _ hnot => exact absurd hwaiting hnot
  | queued _ _ hnot => exact absurd hwaiting hnot
  | parked hcurr hready _ hcontext hstatus =>
      exact ⟨c, hc, hcurr, hready, hcontext, hstatus⟩
  | resting _ _ hnot => exact absurd hwaiting hnot

/-- A coroutine that sleeps waits for a descriptor or for nothing else, unless
it runs. -/
theorem Inv.sleeper (h : Inv s) (hsleeping : co ∈ s.sleeping)
    (hcurr : s.currThread ≠ some co) :
    ∃ c, s.coroutine co = some c ∧ co ∉ s.ready ∧
      (co ∈ s.waiting ∧ c.context = .polling c.fd ∧ c.status.Started ∨
        co ∉ s.waiting ∧ c.context = .requeued ∧ c.status.Runs) := by
  obtain ⟨c, hc⟩ := Option.isSome_iff_exists.mp (h.sleeping co hsleeping)
  cases h.placed co c hc with
  | running hcurr' => exact absurd hcurr' hcurr
  | queued _ _ _ hnot => exact absurd hsleeping hnot
  | parked _ hready hwaiting hcontext hstatus =>
      exact ⟨c, hc, hready, .inl ⟨hwaiting, hcontext, hstatus⟩⟩
  | resting _ hready hnot _ hcontext hstatus =>
      exact ⟨c, hc, hready, .inr ⟨hnot, hcontext, hstatus⟩⟩

end Reading

/-! ## One coroutine moves -/

/-- Nothing but the place and the record of one coroutine differs. -/
structure Elsewhere (co : Co) (s s' : Schedule) : Prop where
  coroutine : ∀ x, x ≠ co → s'.coroutine x = s.coroutine x
  ready : ∀ x, x ≠ co → (x ∈ s'.ready ↔ x ∈ s.ready)
  waiting : ∀ x, x ≠ co → (x ∈ s'.waiting ↔ x ∈ s.waiting)
  sleeping : ∀ x, x ≠ co → (x ∈ s'.sleeping ↔ x ∈ s.sleeping)
  curr : ∀ x, x ≠ co → (s'.currThread = some x ↔ s.currThread = some x)

section Moves

variable {s s' : Schedule} {co co' : Co} {c : Coroutine}

theorem Elsewhere.at (h : Elsewhere co s s') (hne : co' ≠ co)
    (hat : s.At co' c) : s'.At co' c := by
  have hcurr := h.curr co' hne
  have hready := h.ready co' hne
  have hwaiting := h.waiting co' hne
  have hsleeping := h.sleeping co' hne
  cases hat with
  | running h₁ h₂ h₃ hstatus =>
      exact .running (hcurr.mpr h₁) (mt hready.mp h₂) (mt hwaiting.mp h₃)
        hstatus
  | queued h₁ h₂ h₃ h₄ hstatus =>
      exact .queued (mt hcurr.mp h₁) (hready.mpr h₂) (mt hwaiting.mp h₃)
        (mt hsleeping.mp h₄) hstatus
  | parked h₁ h₂ h₃ hcontext hstatus =>
      exact .parked (mt hcurr.mp h₁) (mt hready.mp h₂) (hwaiting.mpr h₃)
        hcontext hstatus
  | resting h₁ h₂ h₃ h₄ hcontext hstatus =>
      exact .resting (mt hcurr.mp h₁) (mt hready.mp h₂) (mt hwaiting.mp h₃)
        (hsleeping.mpr h₄) hcontext hstatus

theorem Elsewhere.linked {l l' : List Co} (h : Elsewhere co s s')
    (hl : s.Linked l) (hmem : ∀ x, x ≠ co → (x ∈ l' ↔ x ∈ l))
    (hco : co ∈ l' → (s'.coroutine co).isSome) : s'.Linked l' := by
  intro x hx
  by_cases hne : x = co
  · subst hne
    exact hco hx
  · rw [h.coroutine x hne]
    exact hl x ((hmem x hne).mp hx)

/-- The others stay where they are; what remains is the one that moves. -/
theorem Places.move (h : Places s) (hmoves : Elsewhere co s s')
    (halive : ∀ c, s'.coroutine co = some c → s'.At co c)
    (hdead : s'.coroutine co = none → co ∉ s'.ready ∧ co ∉ s'.waiting ∧
      co ∉ s'.sleeping ∧ s'.currThread ≠ some co) : Places s' := by
  have hlive : ∀ {p : Prop}, (s'.coroutine co = none → ¬ p) → p →
      (s'.coroutine co).isSome := by
    intro p hp hholds
    cases hc : s'.coroutine co with
    | none => exact absurd hholds (hp hc)
    | some c => rfl
  refine ⟨?_, ?_, ?_, ?_, ?_⟩
  · intro x c hc
    by_cases hne : x = co
    · subst hne
      exact halive c hc
    · rw [hmoves.coroutine x hne] at hc
      exact hmoves.at hne (h.placed x c hc)
  · exact hmoves.linked h.ready hmoves.ready
      (hlive (fun hnone => (hdead hnone).1))
  · exact hmoves.linked h.waiting hmoves.waiting
      (hlive (fun hnone => (hdead hnone).2.1))
  · exact hmoves.linked h.sleeping hmoves.sleeping
      (hlive (fun hnone => (hdead hnone).2.2.1))
  · intro x hx
    by_cases hne : x = co
    · subst hne
      exact hlive (fun hnone => (hdead hnone).2.2.2) hx
    · rw [hmoves.coroutine x hne]
      exact h.curr x ((hmoves.curr x hne).mp hx)

theorem Elsewhere.keyOf {κ : Type} [Inhabited κ] (T : Tree κ)
    (h : Elsewhere co s s') (hne : co' ≠ co) :
    T.keyOf s' co' = T.keyOf s co' := by
  rw [Tree.keyOf, Tree.keyOf, h.coroutine co' hne]

theorem Watches.same (h : Watches s) (hwaiting : s'.waiting = s.waiting)
    (hpoller : s'.poller = s.poller)
    (hkeys : ∀ x ∈ s.waiting, waitTree.keyOf s' x = waitTree.keyOf s x) :
    Watches s' := by
  constructor
  · rw [hwaiting]
    exact OrderedIndex.sortedBy_of_keys hkeys h.sorted
  · intro fd
    rw [hpoller, hwaiting, h.poller]
    constructor
    · rintro ⟨x, hx, hfd⟩
      exact ⟨x, hx, (hkeys x hx).trans hfd⟩
    · rintro ⟨x, hx, hfd⟩
      exact ⟨x, hx, (hkeys x hx).symm.trans hfd⟩

/-- No coroutine goes to sleep or wakes up. -/
theorem Sleepers.same (h : Sleepers s) (hsleeping : s'.sleeping = s.sleeping)
    (helapsed : s.elapsed ≤ s'.elapsed)
    (hkeys : ∀ x ∈ s.sleeping, sleepTree.keyOf s' x = sleepTree.keyOf s x)
    (hrecords : ∀ x c', s'.coroutine x = some c' → x ∉ s.sleeping →
      c'.sleepUsecs = 0 ∨
        ∃ c, s.coroutine x = some c ∧ c'.sleepUsecs = c.sleepUsecs) :
    Sleepers s' := by
  constructor
  · rw [hsleeping]
    exact OrderedIndex.sortedBy_of_keys hkeys h.sorted
  · intro x hx
    rw [hsleeping] at hx
    rw [hkeys x hx]
    exact h.positive x hx
  · intro x c' hc' hx
    rw [hsleeping] at hx ⊢
    rcases hrecords x c' hc' hx with hzero | ⟨c, hc, hsame⟩
    · rw [hzero]
      refine ⟨Nat.zero_le _, ?_⟩
      intro y hy
      rw [hkeys y hy]
      exact (h.positive y hy).ne'
    · obtain ⟨hpast, hfree⟩ := h.stale x c hc hx
      rw [hsame]
      refine ⟨hpast.trans helapsed, ?_⟩
      intro y hy
      rw [hkeys y hy]
      exact hfree y hy

/-- The record of the coroutine that moves keeps its moment. -/
theorem Elsewhere.sleepers (h : Elsewhere co s s') (hs : Sleepers s)
    (hsleeping : s'.sleeping = s.sleeping) (helapsed : s.elapsed ≤ s'.elapsed)
    (hc : s.coroutine co = some c)
    (hrecord : ∀ c', s'.coroutine co = some c' →
      c'.sleepUsecs = c.sleepUsecs)
    (hlive : co ∈ s.sleeping → (s'.coroutine co).isSome) : Sleepers s' := by
  apply hs.same hsleeping helapsed
  · intro x hx
    by_cases hne : x = co
    · subst hne
      obtain ⟨c', hc'⟩ := Option.isSome_iff_exists.mp (hlive hx)
      rw [keyOf_of_some sleepTree hc', keyOf_of_some sleepTree hc]
      exact hrecord c' hc'
    · exact h.keyOf sleepTree hne
  · intro x c' hc' _
    by_cases hne : x = co
    · subst hne
      exact .inr ⟨c, hc, hrecord c' hc'⟩
    · rw [h.coroutine x hne] at hc'
      exact .inr ⟨c', hc', rfl⟩

/-- The coroutine that moves waits neither before nor after. -/
theorem Elsewhere.watches (h : Elsewhere co s s') (hw : Watches s)
    (hnot : co ∉ s.waiting) (hwaiting : s'.waiting = s.waiting)
    (hpoller : s'.poller = s.poller) : Watches s' := by
  apply hw.same hwaiting hpoller
  intro x hx
  apply h.keyOf waitTree
  rintro rfl
  exact hnot hx

theorem live_congr (hcreated : s'.created = s.created)
    (h : ∀ x, (s'.coroutine x).isSome = (s.coroutine x).isSome) :
    s'.live = s.live := by
  simp only [live, hcreated, h]

theorem Awaited.same (h : Awaited s) (hevents : s'.eventlist = s.eventlist)
    (hpoller : ∀ fd ∈ s.poller, fd ∈ s'.poller)
    (hphase : s.phase = .dispatching → s'.phase = .dispatching) :
    Awaited s' := by
  refine ⟨?_, ?_, ?_⟩
  · rw [hevents]
    exact h.nodup
  · intro ev hev
    rw [hevents] at hev
    exact hpoller ev.fd (h.watched ev hev)
  · intro hne
    rw [hevents] at hne
    exact hphase (h.phase hne)

theorem behind_dispatching (co : Co) {phase : Phase}
    (h : phase = .dispatching) : phase.behind co = .dispatching := by
  rw [h]
  rfl

/-- A live coroutine moves, and no block comes or goes. -/
theorem Inv.moved {c' : Coroutine} (h : Inv s) (hmoves : Elsewhere co s s')
    (hc : s.coroutine co = some c) (hc' : s'.coroutine co = some c')
    (hat : s'.At co c') (hcreated : s'.created = s.created)
    (hspawned : s'.spawned = s.spawned) (hready : s'.ready.Nodup)
    (hwatches : Watches s') (hsleepers : Sleepers s')
    (hawaited : Awaited s') : Inv s' where
  toPlaces := by
    apply h.toPlaces.move hmoves
    · intro c'' hc''
      rw [hc', Option.some.injEq] at hc''
      exact hc'' ▸ hat
    · intro hnone
      rw [hc'] at hnone
      cases hnone
  fresh := by
    intro x hx
    rw [hcreated] at hx
    have hne : x ≠ co := by
      rintro rfl
      rw [h.fresh x hx] at hc
      cases hc
    rw [hmoves.coroutine x hne]
    exact h.fresh x hx
  readyNodup := hready
  watches := hwatches
  sleepers := hsleepers
  spawned := by
    rw [hspawned, h.spawned, live_congr hcreated]
    intro x
    by_cases hne : x = co
    · rw [hne, hc, hc']
      rfl
    · rw [hmoves.coroutine x hne]
  awaited := hawaited

end Moves

/-! ## The running coroutine -/

section Running

variable {s : Schedule} {co : Co} {c : Coroutine}

theorem returns_tailqInsertTail (hready : s.Linked s.ready)
    (hc : s.coroutine co = some c) (hnot : co ∉ s.ready)
    (Q : Unit → Schedule → Prop) :
    Returns (tailqInsertTail co) s Q ↔
      Q () (withReady (s.ready ++ [co]) s) := by
  simp [tailqInsertTail, hready, hc, hnot]

/-- The coroutine yields at the end of the ready queue. -/
def requeued (co : Co) (c : Coroutine) (s : Schedule) : Schedule :=
  withPhase (s.phase.behind co) (withCurr none
    (withCo co (some { c with ops := 0, context := .requeued })
      (withReady (s.ready ++ [co]) s)))

theorem returns_requeue (h : Inv s) (hcurr : s.currThread = some co)
    (hc : s.coroutine co = some c) (Q : Unit → Schedule → Prop) :
    Returns (do tailqInsertTail co; coroutineYield co .requeued) s Q ↔
      Q () (requeued co c s) := by
  obtain ⟨c', hc', hready, -, hstatus⟩ := h.running hcurr
  rw [hc] at hc'
  cases hc'
  simp [returns_tailqInsertTail h.ready hc hready, coroutineYield, hc,
    hstatus.exited, requeued]

theorem Inv.requeue (h : Inv s) (hcurr : s.currThread = some co)
    (hc : s.coroutine co = some c) (hsleeping : co ∉ s.sleeping) :
    Inv (requeued co c s) := by
  obtain ⟨c', hc', hready, hwaiting, hstatus⟩ := h.running hcurr
  rw [hc] at hc'
  cases hc'
  have hmoves : Elsewhere co s (Schedule.requeued co c s) := by
    constructor <;> intro x hx <;> simp [Schedule.requeued, hx, hcurr, hx.symm]
  have hrecord : (Schedule.requeued co c s).coroutine co =
      some { c with ops := 0, context := .requeued } := by
    simp [Schedule.requeued]
  refine h.moved hmoves hc hrecord ?_ rfl rfl ?_
    (hmoves.watches h.watches hwaiting rfl rfl) ?_
    (h.awaited.same rfl (fun fd hfd => hfd) (behind_dispatching co))
  · exact .queued (by simp [Schedule.requeued]) (by simp [Schedule.requeued])
      hwaiting hsleeping (.inr ⟨rfl, hstatus⟩)
  · exact h.readyNodup.append (List.nodup_singleton co)
      (by simpa using hready)
  · apply hmoves.sleepers h.sleepers rfl le_rfl hc
    · intro c' hc'
      rw [hrecord, Option.some.injEq] at hc'
      rw [← hc']
    · intro _
      rw [hrecord]
      rfl

/-- The coroutine yields in its sleep. -/
def rested (co : Co) (c : Coroutine) (s : Schedule) : Schedule :=
  withPhase (s.phase.behind co) (withCurr none
    (withCo co (some { c with ops := 0, context := .requeued }) s))

theorem returns_yield (h : Inv s) (hcurr : s.currThread = some co)
    (hc : s.coroutine co = some c) (Q : Unit → Schedule → Prop) :
    Returns (coroutineYield co .requeued) s Q ↔ Q () (rested co c s) := by
  obtain ⟨c', hc', -, -, hstatus⟩ := h.running hcurr
  rw [hc] at hc'
  cases hc'
  simp [coroutineYield, hc, hstatus.exited, rested]

theorem Inv.rest (h : Inv s) (hcurr : s.currThread = some co)
    (hc : s.coroutine co = some c) (hsleeping : co ∈ s.sleeping) :
    Inv (rested co c s) := by
  obtain ⟨c', hc', hready, hwaiting, hstatus⟩ := h.running hcurr
  rw [hc] at hc'
  cases hc'
  have hmoves : Elsewhere co s (rested co c s) := by
    constructor <;> intro x hx <;> simp [rested, hx, hcurr, hx.symm]
  have hrecord : (rested co c s).coroutine co =
      some { c with ops := 0, context := .requeued } := by
    simp [rested]
  refine h.moved hmoves hc hrecord ?_ rfl rfl h.readyNodup
    (hmoves.watches h.watches hwaiting rfl rfl) ?_
    (h.awaited.same rfl (fun fd hfd => hfd) (behind_dispatching co))
  · exact .resting (by simp [rested]) hready hwaiting hsleeping rfl hstatus
  · apply hmoves.sleepers h.sleepers rfl le_rfl hc
    · intro c' hc'
      rw [hrecord, Option.some.injEq] at hc'
      rw [← hc']
    · intro _
      rw [hrecord]
      rfl

/-- Only the record of the running coroutine changes. -/
theorem Inv.recorded {c' : Coroutine} (h : Inv s)
    (hcurr : s.currThread = some co) (hc : s.coroutine co = some c)
    (hstatus : c'.status.Runs) (hsleep : c'.sleepUsecs = c.sleepUsecs) :
    Inv (withCo co (some c') s) := by
  obtain ⟨-, -, hready, hwaiting, -⟩ := h.running hcurr
  have hmoves : Elsewhere co s (withCo co (some c') s) := by
    constructor <;> intro x hx <;> simp [hx]
  have hrecord : (withCo co (some c') s).coroutine co = some c' := by simp
  refine h.moved hmoves hc hrecord (.running hcurr hready hwaiting hstatus)
    rfl rfl h.readyNodup (hmoves.watches h.watches hwaiting rfl rfl) ?_
    (h.awaited.same rfl (fun fd hfd => hfd) id)
  apply hmoves.sleepers h.sleepers rfl le_rfl hc
  · intro c'' hc''
    rw [hrecord, Option.some.injEq] at hc''
    rw [← hc'', hsleep]
  · intro _
    rw [hrecord]
    rfl

/-- The coroutine waits for a descriptor. -/
def parked (co : Co) (c : Coroutine) (status : Status) (fd : ℤ)
    (events : BitVec 16) (l : List Co) (s : Schedule) : Schedule :=
  withPhase (s.phase.behind co) (withCurr none
    (withCo co (some { c with
        status := status
        fd := fd
        events := events
        ops := 0
        context := .polling fd })
      (withWaiting l (withPoller (insert fd s.poller) s))))

theorem keyOf_withCo_of_ne {κ : Type} [Inhabited κ] (T : Tree κ) {x : Co}
    (hne : x ≠ co) (r : Option Coroutine) :
    T.keyOf (withCo co r s) x = T.keyOf s x := by
  rw [Tree.keyOf, withCo_coroutine, Function.update_of_ne hne, Tree.keyOf]

theorem Linked.withCo {l : List Co} (h : s.Linked l) :
    Linked (withCo co (some c) s) l := by
  intro x hx
  by_cases hne : x = co
  · simp [hne]
  · simpa [hne] using h x hx

/-- An element of a new key becomes a member. -/
theorem returns_rbInsert {κ : Type} [LinearOrder κ] [Inhabited κ]
    (T : Tree κ) (co : Co) (hlinked : s.Linked (T.nodes s))
    (hc : s.coroutine co = some c)
    (hsorted : SortedBy (T.keyOf s) (T.nodes s))
    (hfree : ∀ x ∈ T.nodes s, T.keyOf s x ≠ T.key c) :
    Returns (rbInsert T co) s (fun found s' => found = none ∧ ∃ l,
      l.Perm (co :: T.nodes s) ∧ SortedBy (T.keyOf s) l ∧
        s' = T.withNodes l s) := by
  have hkey := keyOf_of_some T hc
  have hfree' : ∀ x ∈ T.nodes s, T.keyOf s x ≠ T.keyOf s co := by
    rw [hkey]
    exact hfree
  simp only [rbInsert, returns_bind, returns_traverse, hlinked, returns_deref,
    hc, Option.some.injEq, exists_eq_left', Fallible.returns_get, true_and,
    OrderedIndex.insert_of_free hfree', Fallible.returns_modify, returns_pure]
  exact ⟨_, List.perm_orderedInsert _ _ _,
    OrderedIndex.sortedBy_orderedInsert hsorted hfree', rfl⟩

theorem Inv.keyOf_ne_of_notMem (h : Inv s) {fd : ℤ} (hfd : fd ∉ s.poller) :
    ∀ x ∈ s.waiting, waitTree.keyOf s x ≠ fd :=
  fun x hx heq => hfd ((h.watches.poller fd).mpr ⟨x, hx, heq⟩)

theorem returns_scheduleSchedWait (co : Co) (fd : ℤ) (events : BitVec 16)
    (hwaiting : s.Linked s.waiting)
    (hsorted : SortedBy (waitTree.keyOf s) s.waiting)
    (hnot : co ∉ s.waiting) (hc : s.coroutine co = some c)
    (hstatus : c.status.Runs)
    (hevents : events &&& pollIn ≠ 0 ∨ events &&& pollOut ≠ 0)
    (hfree : ∀ x ∈ s.waiting, waitTree.keyOf s x ≠ fd) :
    Returns (scheduleSchedWait co fd events 1) s (fun _ s' =>
      ∃ status l, Status.Started status ∧ l.Perm (co :: s.waiting) ∧
        SortedBy (waitTree.keyOf s') l ∧
        s' = withWaiting l (withCo co
          (some { c with status := status, fd := fd, events := events })
          s)) := by
  obtain ⟨mask, hmask, hbits⟩ := exists_waitMask hevents
  simp only [scheduleSchedWait, orStatus, returns_bind, returns_deref, hc,
    Option.some.injEq, exists_eq_left', hstatus.waitRead, hstatus.waitWrite,
    Bool.or_false, Bool.false_eq_true, reduceIte, hmask, returns_change,
    withCo_coroutine, Function.update_self, withCo_withCo]
  have hkeys : ∀ x ∈ s.waiting, waitTree.keyOf (withCo co
      (some { c with status := c.status ||| mask, fd := fd, events := events })
      s) x = waitTree.keyOf s x := by
    intro x hx
    apply keyOf_withCo_of_ne
    rintro rfl
    exact hnot hx
  have hinsert := returns_rbInsert waitTree co hwaiting.withCo (Function.update_self _ _ _)
    (OrderedIndex.sortedBy_of_keys hkeys hsorted) (by
      intro x hx
      rw [hkeys x hx]
      exact hfree x hx)
  apply hinsert.mono
  rintro found s' ⟨rfl, l, hperm, hl, rfl⟩
  rw [returns_pure]
  exact ⟨_, l, hstatus.or_mask hbits, hperm, hl, rfl⟩

theorem returns_poll {fd : ℤ} {events : BitVec 16} (h : Inv s)
    (hcurr : s.currThread = some co) (hc : s.coroutine co = some c)
    (hopened : fd ∈ s.opened) (hfd : fd ∉ s.poller)
    (hevents : events &&& pollIn ≠ 0 ∨ events &&& pollOut ≠ 0) :
    Returns (do pollEnter co fd events; coroutineYield co (.polling fd)) s
      (fun _ s' => ∃ status l, Status.Started status ∧
        l.Perm (co :: s.waiting) ∧ SortedBy (waitTree.keyOf s') l ∧
        s' = parked co c status fd events l s) := by
  obtain ⟨c', hc', -, hwaiting, hstatus⟩ := h.running hcurr
  rw [hc] at hc'
  cases hc'
  have hpolled : (withPoller (insert fd s.poller) s).coroutine co = some c := hc
  simp only [pollEnter, returns_bind, Fallible.returns_modify, if_pos hopened,
    returns_change, hpolled, Option.some.injEq, exists_eq_left']
  have hkeys : ∀ x ∈ s.waiting, waitTree.keyOf
      (withCo co (some { c with events := events })
        (withPoller (insert fd s.poller) s)) x = waitTree.keyOf s x := by
    intro x hx
    apply keyOf_withCo_of_ne
    rintro rfl
    exact hwaiting hx
  have hwait := returns_scheduleSchedWait co fd events
    (s := withCo co (some { c with events := events })
      (withPoller (insert fd s.poller) s))
    h.waiting.withCo (OrderedIndex.sortedBy_of_keys hkeys h.watches.sorted)
    hwaiting (Function.update_self _ _ _) hstatus hevents (by
      intro x hx
      rw [hkeys x hx]
      exact h.keyOf_ne_of_notMem hfd x hx)
  apply hwait.mono
  rintro _ s' ⟨status, l, hstarted, hperm, hl, rfl⟩
  simp only [coroutineYield, returns_bind, returns_change, returns_deref,
    Fallible.returns_modify, withWaiting_coroutine, withCo_coroutine,
    withCurr_coroutine, Function.update_self, Option.some.injEq,
    exists_eq_left', hstarted.exited, Bool.false_and, Bool.false_eq_true,
    reduceIte]
  refine ⟨status, l, hstarted, hperm, ?_, ?_⟩
  · apply OrderedIndex.sortedBy_of_keys ?_ hl
    intro x _
    by_cases hne : x = co
    · subst hne
      simp [Tree.keyOf, waitTree]
    · simp [Tree.keyOf, hne]
  · simp [parked, withCo, withWaiting, withPoller, withCurr, withPhase]

theorem Inv.park {fd : ℤ} {events : BitVec 16} {status : Status}
    {l : List Co} (h : Inv s) (hcurr : s.currThread = some co)
    (hc : s.coroutine co = some c) (hfd : fd ∉ s.poller)
    (hstatus : status.Started) (hperm : l.Perm (co :: s.waiting))
    (hsorted : SortedBy
      (waitTree.keyOf (parked co c status fd events l s)) l) :
    Inv (parked co c status fd events l s) := by
  obtain ⟨-, -, hready, hwaiting, -⟩ := h.running hcurr
  have hmem : ∀ x, x ∈ l ↔ x = co ∨ x ∈ s.waiting := by
    intro x
    rw [hperm.mem_iff, List.mem_cons]
  have hmoves : Elsewhere co s (Schedule.parked co c status fd events l s) := by
    constructor <;> intro x hx <;>
      simp [Schedule.parked, hx, hcurr, hx.symm, hmem]
  have hrecord : (Schedule.parked co c status fd events l s).coroutine co =
      some { c with
        status := status
        fd := fd
        events := events
        ops := 0
        context := .polling fd } := by
    simp [Schedule.parked]
  have hkey := keyOf_of_some waitTree hrecord
  have hothers : ∀ x ∈ s.waiting, waitTree.keyOf
      (Schedule.parked co c status fd events l s) x =
        waitTree.keyOf s x := by
    intro x hx
    apply hmoves.keyOf waitTree
    rintro rfl
    exact hwaiting hx
  refine h.moved hmoves hc hrecord ?_ rfl rfl h.readyNodup ⟨hsorted, ?_⟩ ?_
    (h.awaited.same rfl (fun fd' => Finset.mem_insert_of_mem)
      (behind_dispatching co))
  · exact .parked (by simp [Schedule.parked]) hready
      ((hmem co).mpr (.inl rfl)) rfl hstatus
  · intro fd'
    change fd' ∈ insert fd s.poller ↔ ∃ x ∈ l, _
    rw [Finset.mem_insert, h.watches.poller]
    constructor
    · rintro (rfl | ⟨x, hx, hfd'⟩)
      · exact ⟨co, (hmem co).mpr (.inl rfl), hkey⟩
      · exact ⟨x, (hmem x).mpr (.inr hx), (hothers x hx).trans hfd'⟩
    · rintro ⟨x, hx, rfl⟩
      rcases (hmem x).mp hx with rfl | hx
      · exact .inl hkey
      · exact .inr ⟨x, hx, (hothers x hx).symm⟩
  · apply hmoves.sleepers h.sleepers rfl le_rfl hc
    · intro c' hc'
      rw [hrecord, Option.some.injEq] at hc'
      rw [← hc']
    · intro _
      rw [hrecord]
      rfl

/-- The function of the coroutine has returned, and its block is freed. -/
def retired (co : Co) (s : Schedule) : Schedule :=
  withPhase (s.phase.behind co) (withCo co none
    (withSpawned (s.spawned - 1) (withCurr none s)))

theorem returns_execEnd (hc : s.coroutine co = some c)
    (Q : Unit → Schedule → Prop) :
    Returns (execEnd co) s Q ↔ Q () (retired co s) := by
  simp [execEnd, orStatus, coroutineYield, coroutineFree, hc, has_or, has_bit,
    retired, withCo, withSpawned, withCurr, withPhase]

theorem mem_live (h : ∀ x, s.created ≤ x → s.coroutine x = none) {x : Co} :
    x ∈ s.live ↔ (s.coroutine x).isSome := by
  simp only [live, Finset.mem_filter, Finset.mem_range, and_iff_right_iff_imp]
  intro hsome
  by_contra hle
  rw [h x (not_lt.mp hle)] at hsome
  cases hsome

theorem Inv.retire (h : Inv s) (hcurr : s.currThread = some co)
    (hsleeping : co ∉ s.sleeping) : Inv (retired co s) := by
  obtain ⟨c, hc, hready, hwaiting, -⟩ := h.running hcurr
  have hmoves : Elsewhere co s (retired co s) := by
    constructor <;> intro x hx <;> simp [retired, hx, hcurr, hx.symm]
  have hdead : (retired co s).coroutine co = none := by simp [retired]
  have hfresh : ∀ x, s.created ≤ x → (retired co s).coroutine x = none := by
    intro x hx
    by_cases hne : x = co
    · rw [hne, hdead]
    · rw [hmoves.coroutine x hne]
      exact h.fresh x hx
  refine ⟨h.toPlaces.move hmoves ?_ ?_, hfresh, h.readyNodup,
    hmoves.watches h.watches hwaiting rfl rfl, ?_, ?_,
    h.awaited.same rfl (fun fd hfd => hfd) (behind_dispatching co)⟩
  · intro c' hc'
    rw [hdead] at hc'
    cases hc'
  · intro _
    exact ⟨hready, hwaiting, hsleeping, by simp [retired]⟩
  · apply hmoves.sleepers h.sleepers rfl le_rfl hc
    · intro c' hc'
      rw [hdead] at hc'
      cases hc'
    · intro hmem
      exact absurd hmem hsleeping
  · have hlive : (retired co s).live = s.live.erase co := by
      ext x
      rw [mem_live hfresh, Finset.mem_erase, mem_live h.fresh]
      by_cases hne : x = co
      · rw [hne, hdead]
        simp
      · rw [hmoves.coroutine x hne]
        simp [hne]
    have hmem : co ∈ s.live := by
      rw [mem_live h.fresh, hc]
      rfl
    have hcard := Finset.card_erase_add_one hmem
    have hspawned := h.spawned
    rw [hlive]
    change s.spawned - 1 = _
    omega

def newCoroutine (id : ℤ) : Coroutine where
  status := CoroutineStatus.new.bit
  id := id
  fd := -1
  events := 0
  ops := 0
  sleepUsecs := 0
  context := .entry

/-- A coroutine is created, at the end of the ready queue. -/
def enlisted (s : Schedule) : Schedule :=
  withReady (s.ready ++ [s.created]) (withSpawned (s.spawned + 1)
    (withCreated (s.created + 1)
      (withCo s.created (some (newCoroutine s.spawned)) s)))

theorem Inv.dead (h : Inv s) : s.coroutine s.created = none :=
  h.fresh s.created le_rfl

theorem returns_coroutineCreate (h : Inv s) (Q : Unit → Schedule → Prop) :
    Returns (coroutineCreate true) s Q ↔ Q () (enlisted s) := by
  have hready : s.created ∉ s.ready := h.ready.ne_dead h.dead
  have hlinked : Linked (withSpawned (s.spawned + 1)
      (withCreated (s.created + 1)
        (withCo s.created (some (newCoroutine s.spawned)) s))) s.ready :=
    h.ready.withCo
  simp only [coroutineCreate, reduceIte, returns_bind, Fallible.returns_get,
    Fallible.returns_modify]
  exact returns_tailqInsertTail hlinked (Function.update_self _ _ _) hready Q

theorem Inv.enlist (h : Inv s) : Inv (enlisted s) := by
  have hdead := h.dead
  have hmoves : Elsewhere s.created s (enlisted s) := by
    constructor <;> intro x hx <;> simp [enlisted, hx]
  have hrecord : (enlisted s).coroutine s.created =
      some (newCoroutine s.spawned) := by
    simp [enlisted]
  have hready : s.created ∉ s.ready := h.ready.ne_dead hdead
  have hwaiting : s.created ∉ s.waiting := h.waiting.ne_dead hdead
  have hsleeping : s.created ∉ s.sleeping := h.sleeping.ne_dead hdead
  have hcurr : s.currThread ≠ some s.created := by
    intro heq
    have hsome := h.curr s.created heq
    rw [hdead] at hsome
    cases hsome
  have hfresh : ∀ x, (enlisted s).created ≤ x →
      (enlisted s).coroutine x = none := by
    intro x hx
    change s.created + 1 ≤ x at hx
    rw [hmoves.coroutine x (Nat.ne_of_gt hx)]
    exact h.fresh x (Nat.le_of_lt hx)
  refine ⟨h.toPlaces.move hmoves ?_ ?_, hfresh, ?_,
    hmoves.watches h.watches hwaiting rfl rfl, ?_, ?_,
    h.awaited.same rfl (fun fd hfd => hfd) id⟩
  · intro c' hc'
    rw [hrecord, Option.some.injEq] at hc'
    subst hc'
    exact .queued hcurr (by simp [enlisted]) hwaiting hsleeping
      (.inl ⟨rfl, rfl⟩)
  · intro hnone
    rw [hrecord] at hnone
    cases hnone
  · exact h.readyNodup.append (List.nodup_singleton _) (by simpa using hready)
  · refine h.sleepers.same rfl le_rfl ?_ ?_
    · intro x hx
      apply hmoves.keyOf sleepTree
      rintro rfl
      exact hsleeping hx
    · intro x c' hc' _
      by_cases hne : x = s.created
      · rw [hne, hrecord, Option.some.injEq] at hc'
        rw [← hc']
        exact .inl rfl
      · rw [hmoves.coroutine x hne] at hc'
        exact .inr ⟨c', hc', rfl⟩
  · have hlive : (enlisted s).live = insert s.created s.live := by
      ext x
      rw [mem_live hfresh, Finset.mem_insert, mem_live h.fresh]
      by_cases hne : x = s.created
      · rw [hne, hrecord]
        simp
      · rw [hmoves.coroutine x hne]
        simp [hne]
    have hmem : s.created ∉ s.live := by
      rw [mem_live h.fresh, hdead]
      simp
    rw [hlive, Finset.card_insert_of_notMem hmem]
    change s.spawned + 1 = _
    rw [h.spawned]
    push_cast
    rfl

/-! ## Going to sleep -/

/-- The coroutine sleeps until a moment. -/
def asleep (co : Co) (c : Coroutine) (usecs : ℕ) (l : List Co)
    (s : Schedule) : Schedule :=
  withSleeping l (withCo co (some { c with
    sleepUsecs := usecs
    status := c.status ||| CoroutineStatus.sleeping.bit }) s)

/-- The loop ends at the first moment that is free. -/
theorem returns_sleepdownLoop (co : Co) (fuel : ℕ)
    (hlinked : s.Linked s.sleeping)
    (hsorted : SortedBy (sleepTree.keyOf s) s.sleeping)
    (hnot : co ∉ s.sleeping) (hc : s.coroutine co = some c)
    (hfuel : s.sleeping.countP
      (fun x => c.sleepUsecs ≤ sleepTree.keyOf s x) < fuel)
    (hfits : c.sleepUsecs + s.sleeping.countP
      (fun x => c.sleepUsecs ≤ sleepTree.keyOf s x) < 2 ^ 64) :
    Returns (iterate (sleepdownStep co) fuel ()) s (fun _ s' => ∃ usecs l,
      c.sleepUsecs ≤ usecs ∧
      usecs ≤ c.sleepUsecs + s.sleeping.countP
        (fun x => c.sleepUsecs ≤ sleepTree.keyOf s x) ∧
      (∀ x ∈ s.sleeping, sleepTree.keyOf s x ≠ usecs) ∧
      l.Perm (co :: s.sleeping) ∧ SortedBy (sleepTree.keyOf s') l ∧
      s' = asleep co c usecs l s) := by
  induction fuel generalizing c s with
  | zero => exact absurd hfuel (Nat.not_lt_zero _)
  | succ fuel ih =>
      rw [iterate, returns_bind, sleepdownStep, returns_bind]
      by_cases htaken : ∃ y ∈ s.sleeping, sleepTree.keyOf s y = c.sleepUsecs
      · obtain ⟨y, hy, hkey⟩ := htaken
        have hsame := hkey.trans (keyOf_of_some sleepTree hc).symm
        have hkeys : ∀ r, ∀ x ∈ s.sleeping,
            sleepTree.keyOf (withCo co r s) x = sleepTree.keyOf s x := by
          intro r x hx
          apply keyOf_withCo_of_ne
          rintro rfl
          exact hnot hx
        have hfewer := OrderedIndex.countP_above_lt
          (sleepTree.keyOf s) hy
        rw [hkey] at hfewer
        have hwrap : wrap64 (c.sleepUsecs + 1) = c.sleepUsecs + 1 :=
          Nat.mod_eq_of_lt (by omega)
        have hnodes : sleepTree.nodes s = s.sleeping := rfl
        simp only [rbInsert, returns_bind, returns_traverse, hnodes, hlinked,
          returns_deref, hc, Option.some.injEq, exists_eq_left',
          Fallible.returns_get, true_and,
          OrderedIndex.insert_of_taken hsorted hy hsame,
          Fallible.returns_modify, returns_pure, returns_change]
        have hrecord : (sleepTree.withNodes s.sleeping s).coroutine co =
            some c := hc
        simp only [hrecord, Option.some.injEq, exists_eq_left', hwrap]
        have hcount : ∀ k r, s.sleeping.countP
            (fun x => k ≤ sleepTree.keyOf (withCo co r s) x) =
              s.sleeping.countP (fun x => k ≤ sleepTree.keyOf s x) := by
          intro k r
          apply List.countP_congr
          intro x hx
          rw [hkeys r x hx]
        have hnext := ih (s := withCo co
            (some { c with sleepUsecs := c.sleepUsecs + 1 }) s)
          (c := { c with sleepUsecs := c.sleepUsecs + 1 })
          hlinked.withCo
          (OrderedIndex.sortedBy_of_keys (hkeys _) hsorted) hnot
          (Function.update_self _ _ _)
          (by simp only [withCo_sleeping, hcount]; omega)
          (by simp only [withCo_sleeping, hcount]; omega)
        apply hnext.mono
        simp only [withCo_sleeping, hcount]
        rintro _ s' ⟨usecs, l, hle, hge, hfree, hperm, hl, rfl⟩
        refine ⟨usecs, l, by omega, by omega, ?_, hperm, hl, ?_⟩
        · intro x hx
          rw [← hkeys _ x hx]
          exact hfree x hx
        · simp [asleep, withCo_withCo]
      · have hfree : ∀ x ∈ s.sleeping, sleepTree.keyOf s x ≠ c.sleepUsecs :=
          fun x hx heq => htaken ⟨x, hx, heq⟩
        apply (returns_rbInsert sleepTree co hlinked hc hsorted
          hfree).mono
        rintro found s' ⟨rfl, l, hperm, hl, rfl⟩
        have hrecord : (sleepTree.withNodes l s).coroutine co = some c := hc
        simp only [orStatus, returns_bind, returns_change, hrecord,
          Option.some.injEq, exists_eq_left', returns_pure]
        refine ⟨c.sleepUsecs, l, le_rfl, Nat.le_add_right _ _, hfree, hperm,
          ?_, rfl⟩
        apply OrderedIndex.sortedBy_of_keys ?_ hl
        intro x _
        by_cases hne : x = co
        · rw [hne, keyOf_of_some sleepTree hc,
            keyOf_of_some sleepTree (Function.update_self _ _ _)]
          rfl
        · exact keyOf_withCo_of_ne sleepTree hne _

/-- A coroutine that goes to sleep takes nobody but itself out of the tree. -/
theorem returns_forgetSleep (h : Inv s) (hc : s.coroutine co = some c)
    (Q : Unit → Schedule → Prop) :
    Returns (forgetSleep co) s Q ↔
      Q () (withSleeping (s.sleeping.erase co) s) := by
  have hnodes : sleepTree.nodes s = s.sleeping := rfl
  simp only [forgetSleep, rbFind, returns_bind, returns_deref, hc,
    Option.some.injEq, exists_eq_left', returns_traverse, hnodes, h.sleeping,
    true_and, Fallible.returns_get, returns_pure]
  by_cases hsleeping : co ∈ s.sleeping
  · have hfind : OrderedIndex.find (sleepTree.keyOf s) c.sleepUsecs
        s.sleeping = some co :=
      (OrderedIndex.find_eq_some h.sleepers.sorted).mpr
        ⟨hsleeping, keyOf_of_some sleepTree hc⟩
    simp only [hfind, rbRemove, returns_bind, returns_traverse, hnodes,
      h.sleeping, hsleeping, reduceIte, true_and, Fallible.returns_modify]
    rfl
  · have hfind : OrderedIndex.find (sleepTree.keyOf s) c.sleepUsecs
        s.sleeping = none :=
      OrderedIndex.find_eq_none.mpr (h.sleepers.stale co c hc hsleeping).2
    simp only [hfind, returns_pure, List.erase_of_not_mem hsleeping]
    rfl

theorem Linked.erase {l : List Co} (h : s.Linked l) : s.Linked (l.erase co) :=
  fun x hx => h x (List.mem_of_mem_erase hx)

/-- The sleep lasts as long as was asked for, and as many microseconds more as
the moments that are taken. -/
theorem returns_scheduleSchedSleepdown {msecs : ℕ} (h : Inv s)
    (hc : s.coroutine co = some c) (hmsecs : msecs ≠ 0)
    (hfits : s.elapsed + msecs * 1000 + s.sleeping.length < 2 ^ 64) :
    Returns (scheduleSchedSleepdown co msecs) s (fun _ s' => ∃ usecs l,
      s.elapsed + msecs * 1000 ≤ usecs ∧
      usecs ≤ s.elapsed + msecs * 1000 + s.sleeping.length ∧
      (∀ x ∈ s.sleeping.erase co, sleepTree.keyOf s x ≠ usecs) ∧
      l.Perm (co :: s.sleeping.erase co) ∧ SortedBy (sleepTree.keyOf s') l ∧
      s' = asleep co c usecs l s) := by
  have hwrap : wrap64 (s.elapsed + wrap64 (msecs * 1000)) =
      s.elapsed + msecs * 1000 := by
    have hmsecs' : wrap64 (msecs * 1000) = msecs * 1000 :=
      Nat.mod_eq_of_lt (by omega)
    rw [hmsecs']
    exact Nat.mod_eq_of_lt (by omega)
  have hnot : co ∉ s.sleeping.erase co :=
    (OrderedIndex.nodup_of_sortedBy h.sleepers.sorted).not_mem_erase
  have hlength : (s.sleeping.erase co).length ≤ s.sleeping.length :=
    List.length_erase_le
  have hkeys : ∀ r, ∀ x ∈ s.sleeping.erase co,
      sleepTree.keyOf (withCo co r s) x = sleepTree.keyOf s x := by
    intro r x hx
    apply keyOf_withCo_of_ne
    rintro rfl
    exact hnot hx
  have hcount : ∀ {k : ℕ} {r}, (s.sleeping.erase co).countP
      (fun x => k ≤ sleepTree.keyOf (withCo co r s) x) ≤
        (s.sleeping.erase co).length := List.countP_le_length
  simp only [scheduleSchedSleepdown, returns_bind, returns_forgetSleep h hc,
    Fallible.returns_get, returns_change, withSleeping_coroutine, hc,
    Option.some.injEq, exists_eq_left', withSleeping_elapsed, hwrap, hmsecs,
    reduceIte, withCo_sleeping, withSleeping_sleeping]
  have hloop := returns_sleepdownLoop co ((s.sleeping.erase co).length + 1)
    (c := { c with sleepUsecs := s.elapsed + msecs * 1000 })
    (s := withCo co (some { c with sleepUsecs := s.elapsed + msecs * 1000 })
      (withSleeping (s.sleeping.erase co) s))
    h.sleeping.erase.withCo
    (OrderedIndex.sortedBy_of_keys (hkeys _)
      (OrderedIndex.sortedBy_erase h.sleepers.sorted))
    hnot (Function.update_self _ _ _)
    (Nat.lt_succ_of_le hcount)
    (lt_of_le_of_lt (Nat.add_le_add_left (hcount.trans hlength) _) hfits)
  apply hloop.mono
  rintro _ s' ⟨usecs, l, hle, hge, hfree, hperm, hl, rfl⟩
  refine ⟨usecs, l, hle,
    hge.trans (Nat.add_le_add_left (hcount.trans hlength) _), ?_, hperm, hl,
    ?_⟩
  · intro x hx
    rw [← hkeys _ x hx]
    exact hfree x hx
  · simp [asleep, withCo, withSleeping]

theorem Inv.sleep {usecs : ℕ} {l : List Co} (h : Inv s)
    (hcurr : s.currThread = some co) (hc : s.coroutine co = some c)
    (hlater : s.elapsed < usecs)
    (hfree : ∀ x ∈ s.sleeping.erase co, sleepTree.keyOf s x ≠ usecs)
    (hperm : l.Perm (co :: s.sleeping.erase co))
    (hsorted : SortedBy (sleepTree.keyOf (asleep co c usecs l s)) l) :
    Inv (asleep co c usecs l s) := by
  obtain ⟨c', hc', hready, hwaiting, hstatus⟩ := h.running hcurr
  rw [hc] at hc'
  cases hc'
  have hnot : co ∉ s.sleeping.erase co :=
    (OrderedIndex.nodup_of_sortedBy h.sleepers.sorted).not_mem_erase
  have hmem : ∀ x, x ∈ l ↔ x = co ∨ x ∈ s.sleeping.erase co := by
    intro x
    rw [hperm.mem_iff, List.mem_cons]
  have hothers : ∀ x, x ≠ co → (x ∈ l ↔ x ∈ s.sleeping) := by
    intro x hx
    rw [hmem, List.mem_erase_of_ne hx]
    simp [hx]
  have hmoves : Elsewhere co s (asleep co c usecs l s) := by
    constructor <;> intro x hx <;> simp [asleep, hx, hothers]
  have hrecord : (asleep co c usecs l s).coroutine co = some { c with
      sleepUsecs := usecs
      status := c.status ||| CoroutineStatus.sleeping.bit } := by
    simp [asleep]
  have hkey := keyOf_of_some sleepTree hrecord
  refine h.moved hmoves hc hrecord
    (.running hcurr hready hwaiting (hstatus.or_bit (.inr (.inl rfl)))) rfl rfl
    h.readyNodup (hmoves.watches h.watches hwaiting rfl rfl)
    ⟨hsorted, ?_, ?_⟩ (h.awaited.same rfl (fun fd hfd => hfd) id)
  · intro x hx
    rcases (hmem x).mp hx with rfl | hx
    · rw [hkey]
      exact lt_of_le_of_lt (Nat.zero_le _) hlater
    · have hne : x ≠ co := by
        rintro rfl
        exact hnot hx
      rw [hmoves.keyOf sleepTree hne]
      exact h.sleepers.positive x (List.mem_of_mem_erase hx)
  · intro x c' hc' hx
    have hne : x ≠ co := fun heq => hx ((hmem x).mpr (.inl heq))
    rw [hmoves.coroutine x hne] at hc'
    obtain ⟨hpast, hothers'⟩ := h.sleepers.stale x c' hc'
      (fun hmem' => hx ((hothers x hne).mpr hmem'))
    refine ⟨hpast, ?_⟩
    intro y hy
    rcases (hmem y).mp hy with rfl | hy
    · rw [hkey]
      exact (lt_of_le_of_lt hpast hlater).ne'
    · have hne' : y ≠ co := by
        rintro rfl
        exact hnot hy
      rw [hmoves.keyOf sleepTree hne']
      exact hothers' y (List.mem_of_mem_erase hy)

end Running

/-! ## Resuming -/

section Resuming

variable {s : Schedule} {co : Co} {c : Coroutine}

/-- The first coroutine of the ready queue goes on. -/
def picked (co : Co) (c : Coroutine) (rest : List Co) (s : Schedule) :
    Schedule :=
  withCurr (some co) (withCo co (some c) (withReady rest s))

theorem returns_resume_queued (hc : s.coroutine co = some c)
    (hstatus : c.context = .entry ∧ c.status = CoroutineStatus.new.bit ∨
      c.context = .requeued ∧ c.status.Runs) :
    ∃ c' : Coroutine, c'.status.Runs ∧ c'.sleepUsecs = c.sleepUsecs ∧
      ∀ Q : Unit → Schedule → Prop, Returns (coroutineResume co) s Q ↔
        Q () (withCurr (some co) (withCo co (some c') s)) := by
  rcases hstatus with ⟨hcontext, hnew⟩ | ⟨hcontext, hruns⟩
  · refine ⟨{ c with status := CoroutineStatus.ready.bit, context := .entry },
      runs_ready, rfl, ?_⟩
    intro Q
    simp [coroutineResume, coroutineInit, hc, hcontext, hnew, has_bit]
  · refine ⟨c, hruns, rfl, ?_⟩
    intro Q
    have hsame : withCo co (some c) s = s := by
      simp [withCo, ← hc]
    simp [coroutineResume, hc, hcontext, hruns.new, hsame]

theorem Inv.pick {c' : Coroutine} {rest : List Co} (h : Inv s)
    (hcurr : s.currThread = none) (hready : s.ready = co :: rest)
    (hc : s.coroutine co = some c) (hstatus : c'.status.Runs)
    (hsleep : c'.sleepUsecs = c.sleepUsecs) : Inv (picked co c' rest s) := by
  have hmem : co ∈ s.ready := by
    rw [hready]
    exact List.mem_cons_self
  obtain ⟨_, _, -, hwaiting, hsleeping, -⟩ := h.queued hmem
  have hnodup := h.readyNodup
  rw [hready, List.nodup_cons] at hnodup
  have hmoves : Elsewhere co s (picked co c' rest s) := by
    constructor <;> intro x hx <;> simp [picked, hx, hx.symm, hready, hcurr]
  have hrecord : (picked co c' rest s).coroutine co = some c' := by
    simp [picked]
  refine h.moved hmoves hc hrecord
    (.running rfl hnodup.1 hwaiting hstatus) rfl rfl hnodup.2
    (hmoves.watches h.watches hwaiting rfl rfl) ?_
    (h.awaited.same rfl (fun fd hfd => hfd) id)
  apply hmoves.sleepers h.sleepers rfl le_rfl hc
  · intro c'' hc''
    rw [hrecord, Option.some.injEq] at hc''
    rw [← hc'', hsleep]
  · intro hmem'
    exact absurd hmem' hsleeping

/-- A coroutine that waited goes on. -/
def woken (co : Co) (c : Coroutine) (s : Schedule) : Schedule :=
  withWaiting (s.waiting.erase co) (withCo co (some { c with status := 0 })
    (withCurr (some co) (withPoller (s.poller.erase c.fd) s)))

theorem find_waiter (hsorted : SortedBy (waitTree.keyOf s) s.waiting)
    (hwaiting : co ∈ s.waiting) (hc : s.coroutine co = some c) :
    OrderedIndex.find (waitTree.keyOf s) c.fd s.waiting = some co :=
  (OrderedIndex.find_eq_some hsorted).mpr
    ⟨hwaiting, keyOf_of_some waitTree hc⟩

theorem returns_pollLeave (hlinked : s.Linked s.waiting)
    (hsorted : SortedBy (waitTree.keyOf s) s.waiting)
    (hwaiting : co ∈ s.waiting) (hc : s.coroutine co = some c)
    (Q : Unit → Schedule → Prop) :
    Returns (pollLeave c.fd) s Q ↔
      Q () (withWaiting (s.waiting.erase co)
        (withCo co (some { c with status := 0 })
          (withPoller (s.poller.erase c.fd) s))) := by
  have hnodes : ∀ fds, waitTree.nodes (withPoller fds s) = s.waiting :=
    fun _ => rfl
  have hlinked' : ∀ fds, Linked (withPoller fds s) s.waiting := fun _ => hlinked
  have hfind : ∀ fds, OrderedIndex.find (waitTree.keyOf (withPoller fds s))
      c.fd s.waiting = some co := fun _ => find_waiter hsorted hwaiting hc
  have hrecord : ∀ l fds, (waitTree.withNodes l (withPoller fds s)).coroutine
      co = some c := fun _ _ => hc
  simp only [pollLeave, scheduleDeschedWait, rbFind, returns_bind,
    Fallible.returns_modify, returns_traverse, hnodes, hlinked', true_and,
    Fallible.returns_get, returns_pure, hfind, rbRemove, hwaiting, reduceIte,
    setStatus, returns_change, hrecord, Option.some.injEq, exists_eq_left',
    scheduleDeschedSleepdown, returns_deref, withCo_coroutine,
    Function.update_self, has_zero, Bool.false_eq_true]
  rfl

/-- The coroutine leaves the tree of those that wait, whatever its status has
become. -/
theorem returns_resume_waiter (hlinked : s.Linked s.waiting)
    (hsorted : SortedBy (waitTree.keyOf s) s.waiting)
    (hwaiting : co ∈ s.waiting) (hc : s.coroutine co = some c)
    (hcontext : c.context = .polling c.fd) (hnew : c.status.has .new = false)
    (Q : Unit → Schedule → Prop) :
    Returns (coroutineResume co) s Q ↔ Q () (woken co c s) := by
  simp only [coroutineResume, returns_bind, returns_deref, hc,
    Option.some.injEq, exists_eq_left', hnew, Bool.false_eq_true, reduceIte,
    Fallible.returns_modify, hcontext]
  exact returns_pollLeave (s := withCurr (some co) s) hlinked hsorted hwaiting
    hc Q

theorem Inv.wake (h : Inv s) (hcurr : s.currThread = none)
    (hwaiting : co ∈ s.waiting) (hc : s.coroutine co = some c)
    (hevents : ∀ ev ∈ s.eventlist, ev.fd ≠ c.fd) : Inv (woken co c s) := by
  obtain ⟨_, _, -, hready, -, -⟩ := h.waiter hwaiting
  have hnodup : s.waiting.Nodup :=
    OrderedIndex.nodup_of_sortedBy h.watches.sorted
  have hmoves : Elsewhere co s (woken co c s) := by
    constructor <;> intro x hx <;>
      simp [woken, hx, hx.symm, hcurr, List.mem_erase_of_ne hx]
  have hrecord : (woken co c s).coroutine co =
      some { c with status := 0 } := by
    simp [woken]
  have hnot : co ∉ s.waiting.erase co := hnodup.not_mem_erase
  have hothers : ∀ x ∈ s.waiting.erase co,
      waitTree.keyOf (woken co c s) x = waitTree.keyOf s x := by
    intro x hx
    apply hmoves.keyOf waitTree
    rintro rfl
    exact hnot hx
  refine h.moved hmoves hc hrecord (.running rfl hready hnot runs_zero)
    rfl rfl h.readyNodup ⟨?_, ?_⟩ ?_ ⟨h.awaited.nodup, ?_, h.awaited.phase⟩
  · exact OrderedIndex.sortedBy_of_keys hothers
      (OrderedIndex.sortedBy_erase h.watches.sorted)
  · intro fd
    change fd ∈ s.poller.erase c.fd ↔ ∃ x ∈ s.waiting.erase co, _
    have hkey := keyOf_of_some waitTree hc
    rw [Finset.mem_erase, h.watches.poller]
    constructor
    · rintro ⟨hne, x, hx, rfl⟩
      have hxco : x ≠ co := by
        rintro rfl
        exact hne hkey
      have hx' := (List.mem_erase_of_ne hxco).mpr hx
      exact ⟨x, hx', hothers x hx'⟩
    · rintro ⟨x, hx, rfl⟩
      rw [hothers x hx]
      have hx' := List.mem_of_mem_erase hx
      refine ⟨?_, x, hx', rfl⟩
      intro heq
      have hsame := OrderedIndex.key_injOn h.watches.sorted hwaiting hx'
        (hkey.trans heq.symm)
      subst hsame
      exact hnot hx
  · apply hmoves.sleepers h.sleepers rfl le_rfl hc
    · intro c' hc'
      rw [hrecord, Option.some.injEq] at hc'
      rw [← hc']
    · intro _
      rw [hrecord]
      rfl
  · intro ev hev
    exact Finset.mem_erase.mpr
      ⟨hevents ev hev, h.awaited.watched ev hev⟩

/-- The kernel, the clock or the loop goes on. -/
theorem Inv.congr {s' : Schedule} (h : Inv s)
    (hcoroutine : s'.coroutine = s.coroutine)
    (hcreated : s'.created = s.created) (hspawned : s'.spawned = s.spawned)
    (hcurr : s'.currThread = s.currThread) (hready : s'.ready = s.ready)
    (hsleeping : s'.sleeping = s.sleeping) (hwaiting : s'.waiting = s.waiting)
    (hpoller : s'.poller = s.poller) (helapsed : s.elapsed ≤ s'.elapsed)
    (hawaited : Awaited s') : Inv s' := by
  have hlinked : ∀ {l}, s.Linked l → s'.Linked l := by
    intro l hl x hx
    rw [hcoroutine]
    exact hl x hx
  have hkeys : ∀ {κ : Type} [Inhabited κ] (T : Tree κ) x,
      T.keyOf s' x = T.keyOf s x := by
    intro κ _ T x
    rw [Tree.keyOf, Tree.keyOf, hcoroutine]
  refine ⟨⟨?_, ?_, ?_, ?_, ?_⟩, ?_, ?_,
    h.watches.same hwaiting hpoller (fun x _ => hkeys waitTree x),
    h.sleepers.same hsleeping helapsed (fun x _ => hkeys sleepTree x) ?_, ?_,
    hawaited⟩
  · intro x c hc
    rw [hcoroutine] at hc
    cases h.placed x c hc with
    | running h₁ h₂ h₃ hstatus =>
        exact .running (hcurr ▸ h₁) (hready ▸ h₂) (hwaiting ▸ h₃) hstatus
    | queued h₁ h₂ h₃ h₄ hstatus =>
        exact .queued (hcurr ▸ h₁) (hready ▸ h₂) (hwaiting ▸ h₃)
          (hsleeping ▸ h₄) hstatus
    | parked h₁ h₂ h₃ hcontext hstatus =>
        exact .parked (hcurr ▸ h₁) (hready ▸ h₂) (hwaiting ▸ h₃) hcontext
          hstatus
    | resting h₁ h₂ h₃ h₄ hcontext hstatus =>
        exact .resting (hcurr ▸ h₁) (hready ▸ h₂) (hwaiting ▸ h₃)
          (hsleeping ▸ h₄) hcontext hstatus
  · exact hlinked (hready ▸ h.ready)
  · exact hlinked (hwaiting ▸ h.waiting)
  · exact hlinked (hsleeping ▸ h.sleeping)
  · intro x hx
    rw [hcoroutine]
    exact h.curr x (hcurr ▸ hx)
  · intro x hx
    rw [hcoroutine]
    exact h.fresh x (hcreated ▸ hx)
  · rw [hready]
    exact h.readyNodup
  · intro x c hc _
    rw [hcoroutine] at hc
    exact .inr ⟨c, hc, rfl⟩
  · rw [hspawned, h.spawned, live_congr hcreated]
    intro x
    rw [hcoroutine]

/-- Only the loop that handles the events has events to handle. -/
theorem Inv.eventlist_nil (h : Inv s) (hphase : s.phase ≠ .dispatching) :
    s.eventlist = [] := by
  by_contra hne
  exact hphase (h.awaited.phase hne)

theorem Inv.toPhase {phase : Phase} (h : Inv s)
    (hevents : s.eventlist = []) : Inv (withPhase phase s) := by
  refine h.congr rfl rfl rfl rfl rfl rfl rfl rfl le_rfl ⟨?_, ?_, ?_⟩
  · exact h.awaited.nodup
  · exact h.awaited.watched
  · intro hne
    exact absurd hevents hne

/-- The sleep of a coroutine is over. -/
theorem Sleepers.expire (h : Sleepers s) (hsleeping : co ∈ s.sleeping)
    (hc : s.coroutine co = some c) (hpast : c.sleepUsecs ≤ s.elapsed) :
    Sleepers (withSleeping (s.sleeping.erase co) s) := by
  have hnot : co ∉ s.sleeping.erase co :=
    (OrderedIndex.nodup_of_sortedBy h.sorted).not_mem_erase
  refine ⟨OrderedIndex.sortedBy_erase h.sorted, ?_, ?_⟩
  · intro x hx
    exact h.positive x (List.mem_of_mem_erase hx)
  · intro x c' hc' hx
    change s.coroutine x = some c' at hc'
    by_cases hxco : x = co
    · subst hxco
      rw [hc] at hc'
      cases hc'
      refine ⟨hpast, ?_⟩
      intro y hy heq
      have hsame := OrderedIndex.key_injOn h.sorted hsleeping
        (List.mem_of_mem_erase hy)
        ((keyOf_of_some sleepTree hc).trans heq.symm)
      subst hsame
      exact hnot hy
    · have hx' : x ∉ s.sleeping :=
        fun hmem => hx ((List.mem_erase_of_ne hxco).mpr hmem)
      obtain ⟨hpast', hfree⟩ := h.stale x c' hc' hx'
      exact ⟨hpast', fun y hy => hfree y (List.mem_of_mem_erase hy)⟩

theorem Inv.expire (h : Inv s) (hsleeping : co ∈ s.sleeping)
    (hwaiting : co ∈ s.waiting) (hc : s.coroutine co = some c)
    (hpast : c.sleepUsecs ≤ s.elapsed) :
    Inv (withSleeping (s.sleeping.erase co) s) := by
  obtain ⟨c', hc', hne, hready, hcontext, hstatus⟩ := h.waiter hwaiting
  rw [hc] at hc'
  cases hc'
  have hmoves : Elsewhere co s (withSleeping (s.sleeping.erase co) s) := by
    constructor <;> intro x hx <;> simp [List.mem_erase_of_ne hx]
  exact h.moved hmoves hc hc (.parked hne hready hwaiting hcontext hstatus)
    rfl rfl h.readyNodup (h.watches.same rfl rfl (fun _ _ => rfl))
    (h.sleepers.expire hsleeping hc hpast)
    (h.awaited.same rfl (fun fd hfd => hfd) id)

/-- A coroutine that slept, and waited for nothing else, goes on. -/
def roused (co : Co) (c : Coroutine) (s : Schedule) : Schedule :=
  withCurr (some co) (withCo co (some c)
    (withSleeping (s.sleeping.erase co) s))

theorem Inv.rouse {c' : Coroutine} (h : Inv s) (hcurr : s.currThread = none)
    (hsleeping : co ∈ s.sleeping) (hwaiting : co ∉ s.waiting)
    (hc : s.coroutine co = some c) (hpast : c.sleepUsecs ≤ s.elapsed)
    (hstatus : c'.status.Runs) (hsleep : c'.sleepUsecs = c.sleepUsecs) :
    Inv (roused co c' s) := by
  obtain ⟨-, -, hready, -⟩ := h.sleeper hsleeping (by simp [hcurr])
  have hmoves : Elsewhere co s (roused co c' s) := by
    constructor <;> intro x hx <;>
      simp [roused, hx, hx.symm, hcurr, List.mem_erase_of_ne hx]
  have hmoves' : Elsewhere co (withSleeping (s.sleeping.erase co) s)
      (roused co c' s) := by
    constructor <;> intro x hx <;> simp [roused, hx, hx.symm, hcurr]
  have hrecord : (roused co c' s).coroutine co = some c' := by
    simp [roused]
  refine h.moved hmoves hc hrecord (.running rfl hready hwaiting hstatus)
    rfl rfl h.readyNodup (hmoves.watches h.watches hwaiting rfl rfl) ?_
    (h.awaited.same rfl (fun fd hfd => hfd) id)
  apply hmoves'.sleepers (h.sleepers.expire hsleeping hc hpast) rfl le_rfl hc
  · intro c'' hc''
    rw [hrecord, Option.some.injEq] at hc''
    rw [← hc'', hsleep]
  · intro _
    rw [hrecord]
    rfl

theorem Inv.handleEvent {ev : PollEvent} {rest : List PollEvent} (h : Inv s)
    (hevents : s.eventlist = ev :: rest) : Inv (withEventlist rest s) := by
  have hnodup := h.awaited.nodup
  rw [hevents, List.map_cons, List.nodup_cons] at hnodup
  refine h.congr rfl rfl rfl rfl rfl rfl rfl rfl le_rfl ⟨hnodup.2, ?_, ?_⟩
  · intro ev' hev'
    apply h.awaited.watched
    rw [hevents]
    exact List.mem_cons_of_mem ev hev'
  · intro _
    apply h.awaited.phase
    rw [hevents]
    exact List.cons_ne_nil ev rest

end Resuming

end Schedule

end CAdvanced
