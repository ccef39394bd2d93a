import CAdvanced.SchedulePlaces

/-!
# The steps of the scheduler

What an action does to a state in which every coroutine has its place, said once
for every action; from it, that no action faults and every one keeps the places.
-/

namespace CAdvanced

open Fallible
open Transition
open RedBlack

namespace Schedule

/-- How long `epoll_wait` may block. -/
def minTimeout (s : Schedule) : ℕ :=
  s.sleeping.head?.elim defaultTimeout
    (fun co => sleepTree.keyOf s co - s.elapsed)

/-- Where an action leads. -/
inductive Next (s : Schedule) : Action → Schedule → Prop
  | tick {elapsed : ℕ} : Next s (.tick elapsed) (withElapsed elapsed s)
  | run (hcurr : s.currThread = none) (hphase : s.phase = .idle) :
      Next s .run (withPhase .turning s)
  | turn (hcurr : s.currThread = none) (hphase : s.phase = .turning) :
      Next s .turn
        (withPhase (if scheduleIsdone s then .done else .expiring) s)
  | expired {co : Co} {c : Coroutine} (hcurr : s.currThread = none)
      (hphase : s.phase = .expiring) (hhead : s.sleeping.head? = some co)
      (hwaiting : co ∈ s.waiting) (hc : s.coroutine co = some c)
      (hpast : c.sleepUsecs ≤ s.elapsed) :
      Next s .expire (woken co c (withSleeping (s.sleeping.erase co) s))
  | roused {co : Co} {c c' : Coroutine} (hcurr : s.currThread = none)
      (hphase : s.phase = .expiring) (hhead : s.sleeping.head? = some co)
      (hwaiting : co ∉ s.waiting) (hc : s.coroutine co = some c)
      (hpast : c.sleepUsecs ≤ s.elapsed) (hstatus : c'.status.Runs)
      (hsleep : c'.sleepUsecs = c.sleepUsecs) :
      Next s .expire (roused co c' s)
  | unexpired (hcurr : s.currThread = none) (hphase : s.phase = .expiring)
      (hlater : ∀ co ∈ s.sleeping.head?, s.elapsed < sleepTree.keyOf s co) :
      Next s .expire (withPhase (.readying s.ready.getLast?) s)
  | emptied (hcurr : s.currThread = none) (hphase : s.phase.isReadying = true)
      (hready : s.ready = []) : Next s .ready (withPhase .polling s)
  | picked {co : Co} {c c' : Coroutine} {rest : List Co}
      (hcurr : s.currThread = none) (hphase : s.phase.isReadying = true)
      (hready : s.ready = co :: rest) (hc : s.coroutine co = some c)
      (hstatus : c'.status.Runs) (hsleep : c'.sleepUsecs = c.sleepUsecs) :
      Next s .ready (picked co c' rest s)
  | polled {batch : List PollEvent} (hcurr : s.currThread = none)
      (hphase : s.phase = .polling) (hreported : s.Reported batch) :
      Next s (.epoll batch) (withPhase .dispatching (withEventlist
        (if s.minTimeout ≠ 0 ∧ s.ready = [] then batch.reverse else []) s))
  | dispatched (hcurr : s.currThread = none) (hphase : s.phase = .dispatching)
      (hevents : s.eventlist = []) : Next s .dispatch (withPhase .turning s)
  | handled {ev : PollEvent} {rest : List PollEvent} {co : Co} {c : Coroutine}
      (hcurr : s.currThread = none) (hphase : s.phase = .dispatching)
      (hevents : s.eventlist = ev :: rest) (hwaiting : co ∈ s.waiting)
      (hc : s.coroutine co = some c) (hfd : c.fd = ev.fd) :
      Next s .dispatch (woken co c (withEventlist rest s))
  | created (hphase : s.currThread.isSome ∨ s.phase = .idle) :
      Next s (.create true) (enlisted s)
  | refused : Next s (.create false) s
  | yielded {co : Co} {c : Coroutine} (hcurr : s.currThread = some co)
      (hc : s.coroutine co = some c) (hsleeping : co ∉ s.sleeping) :
      Next s (.sleep 0) (requeued co c s)
  | slept {co : Co} {c : Coroutine} {msecs usecs : ℕ} {l : List Co}
      (hcurr : s.currThread = some co) (hc : s.coroutine co = some c)
      (hmsecs : msecs ≠ 0) (hlong : s.elapsed + msecs * 1000 ≤ usecs)
      (hshort : usecs ≤ s.elapsed + msecs * 1000 + s.sleeping.length)
      (hfree : ∀ x ∈ s.sleeping.erase co, sleepTree.keyOf s x ≠ usecs)
      (hperm : l.Perm (co :: s.sleeping.erase co))
      (hsorted : SortedBy (sleepTree.keyOf (asleep co c usecs l s)) l) :
      Next s (.sleep msecs) (asleep co c usecs l s)
  | counted {co : Co} {c : Coroutine} (hcurr : s.currThread = some co)
      (hc : s.coroutine co = some c) (hops : c.ops < 4) :
      Next s .renice (withCo co (some { c with ops := c.ops + 1 }) s)
  | reniced {co : Co} {c : Coroutine} (hcurr : s.currThread = some co)
      (hc : s.coroutine co = some c) (hops : 4 ≤ c.ops)
      (hsleeping : co ∉ s.sleeping) : Next s .renice (requeued co c s)
  | detached {co : Co} {c : Coroutine} (hcurr : s.currThread = some co)
      (hc : s.coroutine co = some c) :
      Next s .detach (withCo co (some { c with
        status := c.status ||| CoroutineStatus.detach.bit }) s)
  | parked {co : Co} {c : Coroutine} {fd : ℤ} {events : BitVec 16}
      {status : Status} {l : List Co} (hcurr : s.currThread = some co)
      (hc : s.coroutine co = some c) (hfd : fd ∉ s.poller)
      (hstatus : status.Started) (hperm : l.Perm (co :: s.waiting))
      (hsorted : SortedBy
        (waitTree.keyOf (parked co c status fd events l s)) l) :
      Next s (.poll fd events) (parked co c status fd events l s)
  | rested {co : Co} {c : Coroutine} (hcurr : s.currThread = some co)
      (hc : s.coroutine co = some c) (hsleeping : co ∈ s.sleeping) :
      Next s .yield (rested co c s)
  | retired {co : Co} (hcurr : s.currThread = some co)
      (hsleeping : co ∉ s.sleeping) : Next s .exit (retired co s)
  | opened {fd : ℤ} (hcurr : s.currThread.isSome) :
      Next s (.openFd fd) (withOpened (insert fd s.opened) s)
  | closed {fd : ℤ} (hcurr : s.currThread.isSome) (hfd : fd ∉ s.poller) :
      Next s (.closeFd fd) (withOpened (s.opened.erase fd) s)

section Actions

variable {s s' t : Schedule} {co : Co} {a : Action}

/-! ## What an action does -/

theorem Inv.next_running (h : Inv s) (hcurr : s.currThread = some co)
    (henabled : s.Enabled a = true) (hobeys : s.Obeys a)
    (htick : ∀ elapsed, a ≠ .tick elapsed) :
    Returns (runningAct co a) s (fun _ s' => Next s a s') := by
  obtain ⟨c, hc, -, -, hstatus⟩ := h.running hcurr
  have hsome : s.currThread.isSome := by
    rw [hcurr]
    rfl
  cases a with
  | create granted =>
      cases granted with
      | true => exact (returns_coroutineCreate h _).mpr (.created (.inl hsome))
      | false => exact (returns_pure _ s _).mpr .refused
  | sleep msecs =>
      have hobeys' := hobeys co hcurr
      by_cases hmsecs : msecs = 0
      · subst hmsecs
        rw [if_pos rfl] at hobeys'
        simp only [runningAct, coroutineSleep, reduceIte]
        exact (returns_requeue h hcurr hc _).mpr (.yielded hcurr hc hobeys')
      · rw [if_neg hmsecs] at hobeys'
        simp only [runningAct, coroutineSleep, if_neg hmsecs]
        apply (returns_scheduleSchedSleepdown h hc hmsecs hobeys').mono
        rintro _ s' ⟨usecs, l, hlong, hshort, hfree, hperm, hl, rfl⟩
        exact .slept hcurr hc hmsecs hlong hshort hfree hperm hl
  | renice =>
      have hobeys' := hobeys co hcurr c hc
      have hinv : Inv (withCo co (some { c with ops := c.ops + 1 }) s) :=
        h.recorded hcurr hc hstatus rfl
      have hrecord : (withCo co (some { c with ops := c.ops + 1 }) s).coroutine
          co = some { c with ops := c.ops + 1 } := Function.update_self _ _ _
      simp only [runningAct, coroutineRenice, returns_bind, returns_change,
        returns_deref, hc, hrecord, Option.some.injEq, exists_eq_left',
        returns_ite]
      split_ifs with hops
      · exact (returns_pure _ _ _).mpr (.counted hcurr hc (by omega))
      · rw [← returns_bind, returns_requeue hinv hcurr hrecord]
        have hsame : requeued co { c with ops := c.ops + 1 }
            (withCo co (some { c with ops := c.ops + 1 }) s) =
              requeued co c s := by
          simp [requeued, withCo, withReady]
        rw [hsame]
        exact .reniced hcurr hc (by omega) (hobeys' (by omega))
  | detach =>
      simp only [runningAct, coroutineDetach, orStatus, returns_change, hc,
        Option.some.injEq, exists_eq_left']
      exact .detached hcurr hc
  | poll fd events =>
      obtain ⟨hopened, hfd, hevents⟩ := hobeys
      apply (returns_poll h hcurr hc hopened hfd hevents).mono
      rintro _ s' ⟨status, l, hstarted, hperm, hl, rfl⟩
      exact .parked hcurr hc hfd hstarted hperm hl
  | yield =>
      simp only [runningAct, returns_yield h hcurr hc]
      exact .rested hcurr hc (hobeys co hcurr)
  | exit =>
      simp only [runningAct, returns_execEnd hc]
      exact .retired hcurr (hobeys co hcurr)
  | openFd fd =>
      simp only [runningAct, Fallible.returns_modify]
      exact .opened hsome
  | closeFd fd =>
      have herase : s.poller.erase fd = s.poller :=
        Finset.erase_eq_of_notMem hobeys
      simp only [runningAct, returns_bind, Fallible.returns_modify,
        withOpened_poller, herase]
      exact .closed hsome hobeys
  | tick elapsed => exact absurd rfl (htick elapsed)
  | run => simp [Enabled, hcurr] at henabled
  | turn => simp [Enabled, hcurr] at henabled
  | expire => simp [Enabled, hcurr] at henabled
  | ready => simp [Enabled, hcurr] at henabled
  | epoll batch => simp [Enabled, hcurr] at henabled
  | dispatch => simp [Enabled, hcurr] at henabled

theorem Inv.next_expire (h : Inv s) (hcurr : s.currThread = none)
    (hphase : s.phase = .expiring) :
    Returns expireLoop s (fun _ s' => Next s .expire s') := by
  have hevents := h.eventlist_nil (by rw [hphase]; decide)
  have hnodes : sleepTree.nodes s = s.sleeping := rfl
  simp only [expireLoop, scheduleExpired, rbMin, returns_bind,
    Fallible.returns_get, returns_traverse, hnodes, h.sleeping, true_and,
    returns_pure]
  cases hhead : s.sleeping.head? with
  | none =>
      simp only [returns_pure, returns_bind, returns_traverse, h.ready,
        true_and, Fallible.returns_modify]
      apply Next.unexpired hcurr hphase
      intro x hx
      rw [hhead] at hx
      cases hx
  | some co =>
      have hsleeping : co ∈ s.sleeping := List.mem_of_mem_head? hhead
      obtain ⟨c, hc, -, hplace⟩ := h.sleeper hsleeping (by simp [hcurr])
      simp only [returns_bind, returns_deref, hc, Option.some.injEq,
        exists_eq_left', returns_ite]
      split_ifs with hpast
      · simp only [rbRemove, returns_bind, returns_traverse, hnodes,
          h.sleeping, hsleeping, reduceIte, true_and,
          Fallible.returns_modify, returns_pure]
        rcases hplace with ⟨hwaiting, hcontext, hstatus⟩ | ⟨hwaiting, hrests⟩
        · have hinv := h.expire hsleeping hwaiting hc hpast
          apply (returns_resume_waiter
            (s := withSleeping (s.sleeping.erase co) s) hinv.waiting
            hinv.watches.sorted hwaiting hc hcontext hstatus.new _).mpr
          exact .expired hcurr hphase hhead hwaiting hc hpast
        · obtain ⟨c', hruns, hsleep, hresume⟩ := returns_resume_queued
            (s := withSleeping (s.sleeping.erase co) s) hc (.inr hrests)
          exact (hresume _).mpr
            (.roused hcurr hphase hhead hwaiting hc hpast hruns hsleep)
      · simp only [returns_pure, returns_bind, returns_traverse, h.ready,
          true_and, Fallible.returns_modify]
        apply Next.unexpired hcurr hphase
        intro x hx
        rw [hhead, Option.mem_some_iff] at hx
        subst hx
        rw [keyOf_of_some sleepTree hc]
        exact not_le.mp hpast

/-- The first coroutine of the queue is never one whose descriptor has
ended. -/
theorem Inv.next_ready (h : Inv s) (hcurr : s.currThread = none)
    (hphase : s.phase.isReadying = true) :
    Returns readyLoop s (fun _ s' => Next s .ready s') := by
  simp only [readyLoop, returns_bind, returns_traverse, h.ready, true_and]
  cases hready : s.ready with
  | nil =>
      simp only [Fallible.returns_modify]
      exact .emptied hcurr hphase hready
  | cons co rest =>
      obtain ⟨c, hc, -, -, -, hstatus⟩ :=
        h.queued (by rw [hready]; exact List.mem_cons_self)
      have hfdeof : c.status.has .fdeof = false := by
        rcases hstatus with ⟨-, hnew⟩ | ⟨-, hruns⟩
        · rw [hnew]
          rfl
        · exact hruns.fdeof
      have hrecord : (withReady rest s).coroutine co = some c := hc
      obtain ⟨c', hruns, hsleep, hresume⟩ :=
        returns_resume_queued hrecord hstatus
      simp only [returns_bind, Fallible.returns_modify, returns_deref, hrecord,
        Option.some.injEq, exists_eq_left', hfdeof, Bool.false_eq_true,
        reduceIte, hresume]
      exact .picked hcurr hphase hready hc hruns hsleep

theorem Inv.next_dispatch (h : Inv s) (hcurr : s.currThread = none)
    (hphase : s.phase = .dispatching) :
    Returns dispatchLoop s (fun _ s' => Next s .dispatch s') := by
  simp only [dispatchLoop, returns_bind, Fallible.returns_get]
  cases hevents : s.eventlist with
  | nil =>
      simp only [Fallible.returns_modify]
      exact .dispatched hcurr hphase hevents
  | cons ev rest =>
      have hinv := h.handleEvent hevents
      obtain ⟨co, hwaiting, hkey⟩ := (h.watches.poller ev.fd).mp
        (h.awaited.watched ev (by rw [hevents]; exact List.mem_cons_self))
      obtain ⟨c, hc, -, -, hcontext, hstatus⟩ := h.waiter hwaiting
      have hfd : c.fd = ev.fd := (keyOf_of_some waitTree hc).symm.trans hkey
      have hnodes : waitTree.nodes (withEventlist rest s) = s.waiting := rfl
      have hfind := find_waiter (s := withEventlist rest s)
        hinv.watches.sorted hwaiting hc
      rw [hfd, withEventlist_waiting] at hfind
      have hlinked : Linked (withEventlist rest s) s.waiting := hinv.waiting
      have hrecord : (withEventlist rest s).coroutine co = some c := hc
      simp only [returns_bind, Fallible.returns_modify, scheduleSearchWait,
        rbFind, returns_traverse, hnodes, hlinked, true_and,
        Fallible.returns_get, returns_pure, hfind, setStatus, returns_change,
        hrecord, Option.some.injEq, exists_eq_left', orStatus]
      -- whatever is left in the status, the coroutine goes on with none
      have hwoken : ∀ status : Status, status.has .new = false →
          Returns (coroutineResume co) (withCo co
            (some { c with status := status }) (withEventlist rest s))
            (fun _ s' => Next s .dispatch s') := by
        intro status hnew
        have hkeys : ∀ x ∈ s.waiting, waitTree.keyOf (withCo co
            (some { c with status := status }) (withEventlist rest s)) x =
              waitTree.keyOf (withEventlist rest s) x := by
          intro x _
          by_cases hne : x = co
          · rw [hne, keyOf_of_some waitTree hrecord,
              keyOf_of_some waitTree (Function.update_self _ _ _)]
            rfl
          · exact keyOf_withCo_of_ne waitTree hne _
        apply (returns_resume_waiter hlinked.withCo
          (OrderedIndex.sortedBy_of_keys hkeys hinv.watches.sorted) hwaiting
          (Function.update_self _ _ _) hcontext hnew _).mpr
        have hsame : woken co { c with status := status } (withCo co
            (some { c with status := status }) (withEventlist rest s)) =
              woken co c (withEventlist rest s) := by
          simp [woken, withCo, withCurr, withPoller, withWaiting]
        rw [hsame]
        exact .handled hcurr hphase hevents hwaiting hc hfd
      cases heof : ev.eof with
      | true =>
          simp only [reduceIte, returns_bind, returns_change,
            withCo_coroutine, Function.update_self, Option.some.injEq,
            exists_eq_left', withCo_withCo]
          exact hwoken _ (by rw [has_or, has_zero]; rfl)
      | false =>
          simp only [Bool.false_eq_true, reduceIte]
          exact hwoken 0 has_zero

theorem returns_scheduleMinTimeout (h : Inv s) (Q : ℕ → Schedule → Prop) :
    Returns scheduleMinTimeout s Q ↔ Q s.minTimeout s := by
  have hnodes : sleepTree.nodes s = s.sleeping := rfl
  simp only [scheduleMinTimeout, rbMin, returns_bind, Fallible.returns_get,
    returns_traverse, hnodes, h.sleeping, true_and, returns_pure]
  cases hhead : s.sleeping.head? with
  | none =>
      simp only [returns_pure, minTimeout, hhead, Option.elim_none]
  | some co =>
      obtain ⟨c, hc⟩ := Option.isSome_iff_exists.mp
        (h.sleeping co (List.mem_of_mem_head? hhead))
      simp only [returns_bind, returns_deref, hc, Option.some.injEq,
        exists_eq_left', returns_pure, minTimeout, hhead, Option.elim_some,
        keyOf_of_some sleepTree hc]
      rfl

theorem Inv.next_epoll {batch : List PollEvent} (h : Inv s)
    (hcurr : s.currThread = none) (hphase : s.phase = .polling)
    (hreported : s.Reported batch) :
    Returns (do scheduleEpoll batch; modify (withPhase .dispatching)) s
      (fun _ s' => Next s (.epoll batch) s') := by
  have hnext := Next.polled hcurr hphase hreported
  simp only [scheduleEpoll, returns_bind, returns_scheduleMinTimeout h,
    Fallible.returns_get, returns_ite, Fallible.returns_modify]
  split_ifs with hblocks
  · rw [if_pos hblocks] at hnext
    exact hnext
  · rw [if_neg hblocks] at hnext
    exact hnext

theorem returns_act_running (hcurr : s.currThread = some co)
    (htick : ∀ elapsed, a ≠ .tick elapsed) (Q : Unit → Schedule → Prop) :
    Returns (act a) s Q ↔ Returns (runningAct co a) s Q := by
  cases a <;> first
    | exact absurd rfl (htick _)
    | simp only [act, returns_bind, Fallible.returns_get, hcurr]

/-- No action that is enabled faults. -/
theorem Inv.next_act (h : Inv s) (henabled : s.Enabled a = true)
    (hobeys : s.Obeys a) : Returns (act a) s (fun _ s' => Next s a s') := by
  by_cases htick : ∃ elapsed, a = .tick elapsed
  · obtain ⟨elapsed, rfl⟩ := htick
    simp only [act, Fallible.returns_modify]
    exact .tick
  · have htick' : ∀ elapsed, a ≠ .tick elapsed :=
      fun elapsed heq => htick ⟨elapsed, heq⟩
    cases hcurr : s.currThread with
    | some co =>
        rw [returns_act_running hcurr htick']
        exact h.next_running hcurr henabled hobeys htick'
    | none =>
        cases a with
        | tick elapsed => exact absurd rfl (htick' elapsed)
        | run =>
            simp only [Enabled, hcurr, Option.isNone_none, Bool.true_and,
              decide_eq_true_eq] at henabled
            simp only [act, returns_bind, Fallible.returns_get, hcurr,
              Fallible.returns_modify]
            exact .run hcurr henabled
        | turn =>
            simp only [Enabled, hcurr, Option.isNone_none, Bool.true_and,
              decide_eq_true_eq] at henabled
            simp only [act, turnLoop, returns_bind, Fallible.returns_get,
              hcurr, Fallible.returns_modify]
            exact .turn hcurr henabled
        | expire =>
            simp only [Enabled, hcurr, Option.isNone_none, Bool.true_and,
              decide_eq_true_eq] at henabled
            simp only [act, returns_bind, Fallible.returns_get, hcurr]
            exact h.next_expire hcurr henabled
        | ready =>
            simp only [Enabled, hcurr, Option.isNone_none,
              Bool.true_and] at henabled
            simp only [act, returns_bind, Fallible.returns_get, hcurr]
            exact h.next_ready hcurr henabled
        | epoll batch =>
            simp only [Enabled, hcurr, Option.isNone_none, Bool.true_and,
              Bool.and_eq_true, decide_eq_true_eq] at henabled
            simp only [act, returns_bind, Fallible.returns_get, hcurr]
            rw [← returns_bind]
            exact h.next_epoll hcurr henabled.1 henabled.2
        | dispatch =>
            simp only [Enabled, hcurr, Option.isNone_none, Bool.true_and,
              decide_eq_true_eq] at henabled
            simp only [act, returns_bind, Fallible.returns_get, hcurr]
            exact h.next_dispatch hcurr henabled
        | create granted =>
            simp only [Enabled, hcurr, Option.isSome_none, Bool.false_or,
              decide_eq_true_eq] at henabled
            simp only [act, returns_bind, Fallible.returns_get, hcurr]
            cases granted with
            | true =>
                exact (returns_coroutineCreate h _).mpr (.created (.inr henabled))
            | false => exact (returns_pure _ s _).mpr .refused
        | sleep msecs => simp [Enabled, hcurr] at henabled
        | renice => simp [Enabled, hcurr] at henabled
        | detach => simp [Enabled, hcurr] at henabled
        | yield => simp [Enabled, hcurr] at henabled
        | poll fd events => simp [Enabled, hcurr] at henabled
        | exit => simp [Enabled, hcurr] at henabled
        | openFd fd => simp [Enabled, hcurr] at henabled
        | closeFd fd => simp [Enabled, hcurr] at henabled

/-! ## Every step keeps the places -/

theorem Inv.next (h : Inv s) (hobeys : s.Obeys a) (hnext : Next s a s') :
    Inv s' := by
  cases hnext with
  | tick =>
      exact h.congr rfl rfl rfl rfl rfl rfl rfl rfl hobeys
        (h.awaited.same rfl (fun fd hfd => hfd) id)
  | run _ hphase => exact h.toPhase (h.eventlist_nil (by rw [hphase]; decide))
  | turn _ hphase => exact h.toPhase (h.eventlist_nil (by rw [hphase]; decide))
  | expired hcurr hphase hhead hwaiting hc hpast =>
      have hsleeping := List.mem_of_mem_head? hhead
      apply (h.expire hsleeping hwaiting hc hpast).wake hcurr hwaiting hc
      rw [withSleeping_eventlist, h.eventlist_nil (by rw [hphase]; decide)]
      exact nofun
  | roused hcurr _ hhead hwaiting hc hpast hstatus hsleep =>
      exact h.rouse hcurr (List.mem_of_mem_head? hhead) hwaiting hc hpast
        hstatus hsleep
  | unexpired _ hphase =>
      exact h.toPhase (h.eventlist_nil (by rw [hphase]; decide))
  | emptied _ hphase =>
      apply h.toPhase (h.eventlist_nil _)
      intro heq
      rw [heq] at hphase
      cases hphase
  | picked hcurr _ hready hc hstatus hsleep =>
      exact h.pick hcurr hready hc hstatus hsleep
  | polled _ _ hreported =>
      refine h.congr rfl rfl rfl rfl rfl rfl rfl rfl le_rfl ⟨?_, ?_, ?_⟩
      · simp only [withPhase_eventlist, withEventlist_eventlist]
        split_ifs
        · rw [List.map_reverse, List.nodup_reverse]
          exact hreported.1
        · exact List.nodup_nil
      · intro ev hev
        apply hreported.2
        simp only [withPhase_eventlist, withEventlist_eventlist] at hev
        split_ifs at hev
        · exact List.mem_reverse.mp hev
        · cases hev
      · exact fun _ => rfl
  | dispatched _ _ hevents => exact h.toPhase hevents
  | handled hcurr _ hevents hwaiting hc hfd =>
      apply (h.handleEvent hevents).wake hcurr hwaiting hc
      have hnodup := h.awaited.nodup
      rw [hevents, List.map_cons, List.nodup_cons] at hnodup
      intro ev hev heq
      apply hnodup.1
      rw [← hfd, ← heq]
      exact List.mem_map_of_mem hev
  | created => exact h.enlist
  | refused => exact h
  | yielded hcurr hc hsleeping => exact h.requeue hcurr hc hsleeping
  | slept hcurr hc hmsecs hlong hshort hfree hperm hsorted =>
      exact h.sleep hcurr hc (by omega) hfree hperm hsorted
  | counted hcurr hc =>
      obtain ⟨_, hc', -, -, hstatus⟩ := h.running hcurr
      rw [hc] at hc'
      cases hc'
      exact h.recorded hcurr hc hstatus rfl
  | reniced hcurr hc _ hsleeping => exact h.requeue hcurr hc hsleeping
  | detached hcurr hc =>
      obtain ⟨_, hc', -, -, hstatus⟩ := h.running hcurr
      rw [hc] at hc'
      cases hc'
      exact h.recorded hcurr hc (hstatus.or_bit (.inr (.inr rfl))) rfl
  | parked hcurr hc hfd hstatus hperm hsorted =>
      exact h.park hcurr hc hfd hstatus hperm hsorted
  | rested hcurr hc hsleeping => exact h.rest hcurr hc hsleeping
  | retired hcurr hsleeping => exact h.retire hcurr hsleeping
  | opened =>
      exact h.congr rfl rfl rfl rfl rfl rfl rfl rfl le_rfl
        (h.awaited.same rfl (fun fd hfd => hfd) id)
  | closed =>
      exact h.congr rfl rfl rfl rfl rfl rfl rfl rfl le_rfl
        (h.awaited.same rfl (fun fd hfd => hfd) id)

theorem Inv.exists_step (h : Inv s) (henabled : s.Enabled a = true)
    (hobeys : s.Obeys a) : ∃ s', scheduleStep s a = some s' := by
  obtain ⟨_, s', hrun, -⟩ := h.next_act henabled hobeys
  refine ⟨s', ?_⟩
  simp only [scheduleStep, henabled, reduceIte, hrun]
  rfl

theorem Inv.step (h : Inv s) (hobeys : s.Obeys a)
    (hstep : scheduleStep s a = some s') : Next s a s' := by
  by_cases henabled : s.Enabled a = true
  · obtain ⟨_, s'', hrun, hnext⟩ := h.next_act henabled hobeys
    simp only [scheduleStep, henabled, reduceIte, hrun] at hstep
    cases hstep
    exact hnext
  · simp [scheduleStep, henabled] at hstep

end Actions

end Schedule

end CAdvanced
