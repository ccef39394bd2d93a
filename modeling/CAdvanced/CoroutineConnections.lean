import CAdvanced.CoroutineServer

/-!
# The connections of the coroutine server

Every coroutine of the server has an open descriptor of its own, which it polls
whenever it waits; so no call of the scheduler faults, however the connections
are interleaved.
-/

namespace CAdvanced

open Fallible
open Transition
open Schedule

/-! ## What the scheduler leaves alone -/

namespace Schedule

/-- The scheduler only resumes coroutines that wait. -/
structure Keeps (s s' : Schedule) : Prop where
  opened : s'.opened = s.opened
  created : s'.created = s.created
  live : ∀ co, (s'.coroutine co).isSome = (s.coroutine co).isSome
  waiting : ∀ co ∈ s'.waiting, co ∈ s.waiting ∧
    waitTree.keyOf s' co = waitTree.keyOf s co
  asleep : s.sleeping = [] → s'.sleeping = []

section Keeps

variable {s s' : Schedule} {co : Co} {c c' : Coroutine} {a : Action}

theorem live_withCo (hc : s.coroutine co = some c) (x : Co) :
    ((withCo co (some c') s).coroutine x).isSome =
      (s.coroutine x).isSome := by
  by_cases hne : x = co
  · simp [hne, hc]
  · simp [hne]

theorem Keeps.of_same (hcoroutine : s'.coroutine = s.coroutine)
    (hopened : s'.opened = s.opened) (hcreated : s'.created = s.created)
    (hwaiting : s'.waiting = s.waiting) (hsleeping : s'.sleeping = s.sleeping) :
    Keeps s s' := by
  refine ⟨hopened, hcreated, fun x => by rw [hcoroutine], ?_, fun h => by
    rw [hsleeping, h]⟩
  intro x hx
  rw [hwaiting] at hx
  exact ⟨hx, by rw [Tree.keyOf, Tree.keyOf, hcoroutine]⟩

theorem keeps_woken (h : Inv s) (hc : s.coroutine co = some c) :
    Keeps s (woken co c s) := by
  refine ⟨rfl, rfl, live_withCo (s := s) hc, ?_, id⟩
  intro x hx
  have hmem : x ∈ s.waiting.erase co := hx
  have hne : x ≠ co := by
    rintro rfl
    exact (OrderedIndex.nodup_of_sortedBy h.watches.sorted).not_mem_erase hmem
  refine ⟨List.mem_of_mem_erase hmem, ?_⟩
  exact keyOf_withCo_of_ne (s := s) waitTree hne _

theorem keeps_expired (hsleeping : co ∈ s.sleeping) :
    Keeps s (withSleeping (s.sleeping.erase co) s) := by
  refine ⟨rfl, rfl, fun _ => rfl, fun x hx => ⟨hx, rfl⟩, ?_⟩
  intro hnil
  rw [hnil] at hsleeping
  cases hsleeping

theorem Keeps.trans {s'' : Schedule} (h : Keeps s s') (h' : Keeps s' s'') :
    Keeps s s'' where
  opened := h'.opened.trans h.opened
  created := h'.created.trans h.created
  live := fun x => (h'.live x).trans (h.live x)
  waiting := by
    intro x hx
    obtain ⟨hmem, hkey⟩ := h'.waiting x hx
    obtain ⟨hmem', hkey'⟩ := h.waiting x hmem
    exact ⟨hmem', hkey.trans hkey'⟩
  asleep := fun hnil => h'.asleep (h.asleep hnil)

theorem Next.keeps (h : Inv s) (hnext : Next s a s')
    (hloop : NtycoServer.isLoop a = true) : Keeps s s' := by
  cases hnext with
  | tick => exact .of_same rfl rfl rfl rfl rfl
  | turn => exact .of_same rfl rfl rfl rfl rfl
  | expired hcurr hphase hhead hwaiting hc hpast =>
      have hsleeping := List.mem_of_mem_head? hhead
      exact (keeps_expired hsleeping).trans
        (keeps_woken (h.expire hsleeping hwaiting hc hpast) hc)
  | @roused co c c' hcurr hphase hhead hwaiting hc =>
      have hsleeping := List.mem_of_mem_head? hhead
      refine (keeps_expired hsleeping).trans
        ⟨rfl, rfl, live_withCo (s := s) hc, ?_, id⟩
      intro x hx
      have hne : x ≠ co := by
        rintro rfl
        exact hwaiting hx
      exact ⟨hx, keyOf_withCo_of_ne (s := s) waitTree hne _⟩
  | unexpired => exact .of_same rfl rfl rfl rfl rfl
  | emptied => exact .of_same rfl rfl rfl rfl rfl
  | @picked co c c' rest hcurr hphase hready hc =>
      refine ⟨rfl, rfl, live_withCo (s := s) hc, ?_, id⟩
      intro x hx
      have hmem : co ∈ s.ready := by
        rw [hready]
        exact List.mem_cons_self
      obtain ⟨_, _, -, hwaiting, -⟩ := h.queued hmem
      have hne : x ≠ co := by
        rintro rfl
        exact hwaiting hx
      exact ⟨hx, keyOf_withCo_of_ne (s := s) waitTree hne _⟩
  | polled => exact .of_same rfl rfl rfl rfl rfl
  | dispatched => exact .of_same rfl rfl rfl rfl rfl
  | @handled ev rest co c hcurr hphase hevents hwaiting hc hfd =>
      have hhandled : Keeps s (withEventlist rest s) :=
        .of_same rfl rfl rfl rfl rfl
      exact hhandled.trans (keeps_woken (h.handleEvent hevents) hc)
  | _ => cases hloop

end Keeps

end Schedule

/-! ## Connections -/

namespace NtycoServer

/-- A live coroutine serves a descriptor. -/
def Owns (s : NtycoServer) (co : Co) (fd : ℤ) : Prop :=
  (s.sched.coroutine co).isSome ∧
    ∃ frame, s.frame co = some frame ∧ frame.fd = some fd

/-- Each of the coroutines has a frame, and an open descriptor of its own if it
serves one. -/
structure Connected (among : Co → Prop) (s : NtycoServer) : Prop where
  runs : Runs ∅ s.sched
  awake : s.sched.sleeping = []
  framed : ∀ co, among co → (s.sched.coroutine co).isSome →
    (s.frame co).isSome
  opened : ∀ co fd, among co → s.Owns co fd → fd ∈ s.sched.opened
  own : ∀ co co' fd, among co → among co' → s.Owns co fd → s.Owns co' fd →
    co = co'
  waits : ∀ co ∈ s.sched.waiting, ∃ frame, s.frame co = some frame ∧
    frame.fd = some (waitTree.keyOf s.sched co)

abbrev Everyone : Co → Prop := fun _ => True

section Connected

variable {P : Platform} {s s' : NtycoServer} {sched' : Schedule}
  {among among' : Co → Prop} {co co' : Co} {fd : ℤ} {frame : Frame}

theorem Connected.sched (h : Connected among s) : Inv s.sched := h.runs.inv

theorem Connected.mono (h : Connected among s)
    (hamong : ∀ co, among' co → among co) : Connected among' s where
  runs := h.runs
  awake := h.awake
  framed := fun co hco => h.framed co (hamong co hco)
  opened := fun co fd hco => h.opened co fd (hamong co hco)
  own := fun co co' fd hco hco' => h.own co co' fd (hamong co hco)
    (hamong co' hco')
  waits := h.waits

theorem connected_start (store : Server) : Connected Everyone (start store) where
  runs := .start
  awake := rfl
  framed := nofun
  opened := by
    rintro co fd - ⟨hlive, -⟩
    cases hlive
  own := by
    rintro co co' fd - - ⟨hlive, -⟩
    cases hlive
  waits := nofun

/-- The scheduler goes on. -/
theorem Connected.keeps (h : Connected among s) (hruns : Runs ∅ sched')
    (hkeeps : Keeps s.sched sched') :
    Connected among (withSched sched' s) := by
  have howns : ∀ {co fd}, (withSched sched' s).Owns co fd → s.Owns co fd := by
    rintro co fd ⟨hlive, hframe⟩
    exact ⟨(hkeeps.live co).symm.trans hlive, hframe⟩
  refine ⟨hruns, hkeeps.asleep h.awake, ?_, ?_, ?_, ?_⟩
  · intro co hco hlive
    exact h.framed co hco ((hkeeps.live co).symm.trans hlive)
  · intro co fd hco hfd
    change fd ∈ sched'.opened
    rw [hkeeps.opened]
    exact h.opened co fd hco (howns hfd)
  · intro co co' fd hco hco' hfd hfd'
    exact h.own co co' fd hco hco' (howns hfd) (howns hfd')
  · intro co hco
    obtain ⟨hwaiting, hkey⟩ := hkeeps.waiting co hco
    obtain ⟨frame, hframe, hfd⟩ := h.waits co hwaiting
    exact ⟨frame, hframe, hfd.trans (congrArg some hkey.symm)⟩

/-- A descriptor that no other coroutine serves is not watched while this one
runs. -/
theorem Connected.not_watched (h : Connected among s)
    (hcurr : s.sched.currThread = some co)
    (hfree : ∀ x, x ≠ co → ¬ s.Owns x fd) : fd ∉ s.sched.poller := by
  intro hfd
  obtain ⟨x, hx, hkey⟩ := (h.sched.watches.poller fd).mp hfd
  obtain ⟨frame, hframe, hfd'⟩ := h.waits x hx
  obtain ⟨_, _, -, hwaiting, -⟩ := h.sched.running hcurr
  have hne : x ≠ co := by
    rintro rfl
    exact hwaiting hx
  exact hfree x hne ⟨h.sched.waiting x hx, frame, hframe,
    hfd'.trans (congrArg some hkey)⟩

/-- What an action of the running coroutine does under the rules. -/
theorem returns_onSched {a : Action} {Q : Unit → NtycoServer → Prop}
    (h : Runs ∅ s.sched) (henabled : s.sched.Enabled a = true)
    (hobeys : s.sched.Obeys a)
    (hnext : ∀ sched', Next s.sched a sched' → Runs ∅ sched' →
      Q () (withSched sched' s)) : Returns (onSched a) s Q := by
  obtain ⟨_, sched', hrun, hsched'⟩ := h.inv.next_act henabled hobeys
  have hstep : scheduleStep s.sched a = some sched' := by
    simp only [scheduleStep, henabled, reduceIte, hrun]
    rfl
  rw [onSched, returns_within]
  exact ⟨(), sched', hrun, hnext sched' hsched' (h.next a hobeys hstep)⟩

/-! ## What the running coroutine does -/

theorem events_in_or_out (frame : Frame) :
    frame.events &&& pollIn ≠ 0 ∨ frame.events &&& pollOut ≠ 0 := by
  cases frame with
  | send fd buf sent =>
      have hout : (pollOut ||| pollErr ||| pollHup) &&& pollOut ≠ 0 := by decide
      exact .inr hout
  | _ =>
      have hin : (pollIn ||| pollErr ||| pollHup) &&& pollIn ≠ 0 := by decide
      exact .inl hin

/-- The running coroutine yields or returns, and nothing else goes on. -/
structure Leaves (co : Co) (s s' : NtycoServer) : Prop where
  store : s'.store = s.store
  created : s'.sched.created = s.sched.created
  ready : s'.sched.ready = s.sched.ready
  phase : s'.sched.phase = s.sched.phase.behind co
  curr : s'.sched.currThread = none

theorem Connected.returns_pollInner (h : Connected (· ≠ co) s) (frame : Frame)
    (hcurr : s.sched.currThread = some co) (hframe : frame.fd = some fd)
    (hopened : fd ∈ s.sched.opened) (hfree : ∀ x, x ≠ co → ¬ s.Owns x fd) :
    Returns (pollInner co fd frame) s (fun _ s' => Connected Everyone s' ∧
      s'.frame = Function.update s.frame co (some frame) ∧ Leaves co s s') := by
  rw [pollInner, returns_bind, Fallible.returns_modify]
  apply returns_onSched (s := withFrame co frame s)
    (a := .poll fd frame.events) h.runs (by simp [Enabled, hcurr])
    ⟨hopened, h.not_watched hcurr hfree, events_in_or_out frame⟩
  intro sched' hnext hruns
  cases hnext with
  | @parked x c _ _ status l hx hc hfd hstatus hperm hsorted =>
      cases hcurr.symm.trans hx
      have hlive : ∀ y, ((parked co c status fd frame.events l
          s.sched).coroutine y).isSome = (s.sched.coroutine y).isSome :=
        live_withCo (s := withWaiting l
          (withPoller (insert fd s.sched.poller) s.sched)) hc
      have howns : ∀ {y fd'}, y ≠ co →
          (withSched (parked co c status fd frame.events l s.sched)
            (withFrame co frame s)).Owns y fd' → s.Owns y fd' := by
        rintro y fd' hne ⟨hy, frame', hframe', hfd'⟩
        rw [withSched_frame, withFrame_frame,
          Function.update_of_ne hne] at hframe'
        exact ⟨(hlive y).symm.trans hy, frame', hframe', hfd'⟩
      have howned : ∀ {fd'},
          (withSched (parked co c status fd frame.events l s.sched)
            (withFrame co frame s)).Owns co fd' → fd' = fd := by
        rintro fd' ⟨-, frame', hframe', hfd'⟩
        rw [withSched_frame, withFrame_frame, Function.update_self,
          Option.some.injEq] at hframe'
        subst hframe'
        exact Option.some.inj (hfd'.symm.trans hframe)
      refine ⟨⟨hruns, h.awake, ?_, ?_, ?_, ?_⟩, rfl, rfl, rfl, rfl, rfl, rfl⟩
      · intro y _ hy
        by_cases hne : y = co
        · rw [withSched_frame, withFrame_frame, hne, Function.update_self]
          rfl
        · rw [withSched_frame, withFrame_frame, Function.update_of_ne hne]
          exact h.framed y hne ((hlive y).symm.trans hy)
      · intro y fd' _ hfd'
        by_cases hne : y = co
        · subst hne
          rw [howned hfd']
          exact hopened
        · exact h.opened y fd' hne (howns hne hfd')
      · intro y z fd' _ _ hy hz
        by_cases hne : y = co
        · by_cases hne' : z = co
          · rw [hne, hne']
          · rw [hne] at hy
            rw [howned hy] at hz
            exact absurd (howns hne' hz) (hfree z hne')
        · by_cases hne' : z = co
          · rw [hne'] at hz
            rw [howned hz] at hy
            exact absurd (howns hne hy) (hfree y hne)
          · exact h.own y z fd' hne hne' (howns hne hy) (howns hne' hz)
      · intro y hy
        by_cases hne : y = co
        · subst hne
          refine ⟨frame, Function.update_self _ _ _, ?_⟩
          rw [hframe]
          simp [Tree.keyOf, Schedule.parked, waitTree]
        · have hmem : y ∈ s.sched.waiting := by
            have hl : y ∈ l := hy
            rw [hperm.mem_iff, List.mem_cons] at hl
            exact hl.resolve_left hne
          obtain ⟨frame', hframe', hfd'⟩ := h.waits y hmem
          refine ⟨frame', ?_, ?_⟩
          · rw [withSched_frame, withFrame_frame, Function.update_of_ne hne]
            exact hframe'
          · rw [hfd']
            simp [Tree.keyOf, Schedule.parked, hne]

/-- A coroutine that returns takes nobody's descriptor with it. -/
theorem Connected.retire (h : Connected (· ≠ co) s)
    (hcurr : s.sched.currThread = some co)
    (hruns : Runs ∅ (retired co s.sched)) :
    Connected Everyone (withSched (retired co s.sched) s) ∧
      Leaves co s (withSched (retired co s.sched) s) := by
  have hdead : (retired co s.sched).coroutine co = none := by simp [retired]
  have hothers : ∀ y, y ≠ co →
      (retired co s.sched).coroutine y = s.sched.coroutine y := by
    intro y hne
    simp [retired, hne]
  have hne : ∀ {y}, ((retired co s.sched).coroutine y).isSome → y ≠ co := by
    rintro y hy rfl
    rw [hdead] at hy
    cases hy
  have howns : ∀ {y fd'}, (withSched (retired co s.sched) s).Owns y fd' →
      y ≠ co ∧ s.Owns y fd' := by
    rintro y fd' ⟨hy, hframe⟩
    have hy' := hne hy
    refine ⟨hy', ?_, hframe⟩
    rw [← hothers y hy']
    exact hy
  refine ⟨⟨hruns, h.awake, ?_, ?_, ?_, ?_⟩, rfl, rfl, rfl, rfl, rfl⟩
  · intro y _ hy
    have hy' := hne hy
    apply h.framed y hy'
    rw [← hothers y hy']
    exact hy
  · intro y fd' _ hfd'
    obtain ⟨hy, hfd''⟩ := howns hfd'
    exact h.opened y fd' hy hfd''
  · intro y z fd' _ _ hy hz
    obtain ⟨hy', hyfd⟩ := howns hy
    obtain ⟨hz', hzfd⟩ := howns hz
    exact h.own y z fd' hy' hz' hyfd hzfd
  · intro y hy
    have hwaiting : y ∈ s.sched.waiting := hy
    obtain ⟨_, _, -, hnot, -⟩ := h.sched.running hcurr
    have hy' : y ≠ co := by
      rintro rfl
      exact hnot hwaiting
    obtain ⟨frame', hframe', hfd'⟩ := h.waits y hwaiting
    refine ⟨frame', hframe', ?_⟩
    rw [hfd', withSched_sched, Tree.keyOf, Tree.keyOf, hothers y hy']

theorem Connected.returns_exit (h : Connected (· ≠ co) s)
    (hcurr : s.sched.currThread = some co) :
    Returns (onSched .exit) s (fun _ s' => Connected Everyone s' ∧
      s'.frame = s.frame ∧ Leaves co s s') := by
  apply returns_onSched h.runs (by simp [Enabled, hcurr])
  · intro x hx
    rw [h.awake]
    exact List.not_mem_nil
  · intro sched' hnext hruns
    cases hnext with
    | retired hx =>
        cases hcurr.symm.trans hx
        obtain ⟨hconnected, hleaves⟩ := h.retire hcurr hruns
        exact ⟨hconnected, rfl, hleaves⟩

theorem Connected.returns_close (h : Connected (· ≠ co) s)
    (hcurr : s.sched.currThread = some co)
    (hfree : ∀ x, x ≠ co → ¬ s.Owns x fd) :
    Returns (goOn co fd none) s (fun _ s' => Connected Everyone s' ∧
      s'.frame = s.frame ∧ Leaves co s s') := by
  have hfd := h.not_watched hcurr hfree
  rw [goOn, returns_bind]
  apply returns_onSched (a := .closeFd fd) h.runs (by simp [Enabled, hcurr])
    hfd
  intro sched' hnext hruns
  cases hnext with
  | closed =>
      have hclosed : Connected (· ≠ co)
          (withSched (withOpened (s.sched.opened.erase fd) s.sched) s) := by
        refine ⟨hruns, h.awake, h.framed, ?_, h.own, h.waits⟩
        intro x fd' hne hfd'
        apply Finset.mem_erase.mpr
        refine ⟨?_, h.opened x fd' hne hfd'⟩
        rintro rfl
        exact hfree x hne hfd'
      apply (hclosed.returns_exit hcurr).mono
      rintro _ s' ⟨hconnected, hframe, hleaves⟩
      exact ⟨hconnected, hframe, hleaves.store, hleaves.created,
        hleaves.ready, hleaves.phase, hleaves.curr⟩

/-- A descriptor that the kernel hands out is nobody's. -/
theorem Connected.returns_openFd {Q : Unit → NtycoServer → Prop}
    (h : Connected among s) (hcurr : s.sched.currThread = some co)
    (hfd : fd ∉ s.sched.opened)
    (hQ : Connected among
        (withSched (withOpened (insert fd s.sched.opened) s.sched) s) →
      Q () (withSched (withOpened (insert fd s.sched.opened) s.sched) s)) :
    Returns (onSched (.openFd fd)) s Q := by
  apply returns_onSched (a := .openFd fd) h.runs
    (by simp [Enabled, hcurr, hfd]) trivial
  intro sched' hnext hruns
  cases hnext with
  | opened =>
      apply hQ
      refine ⟨hruns, h.awake, h.framed, ?_, h.own, h.waits⟩
      intro x fd' hx hfd'
      exact Finset.mem_insert_of_mem (h.opened x fd' hx hfd')

/-- A new coroutine serves the new descriptor. -/
theorem Connected.create (h : Connected among s) (frame : Frame)
    (hruns : Runs ∅ (enlisted s.sched))
    (hframe : ∀ fd, frame.fd = some fd → fd ∈ s.sched.opened ∧
      ∀ x, among x → ¬ s.Owns x fd) :
    Connected among (withFrame s.sched.created frame
      (withSched (enlisted s.sched) s)) := by
  have hothers : ∀ y, y ≠ s.sched.created →
      (enlisted s.sched).coroutine y = s.sched.coroutine y := by
    intro y hne
    simp [enlisted, hne]
  have howns : ∀ {y fd'}, y ≠ s.sched.created → (withFrame s.sched.created frame
      (withSched (enlisted s.sched) s)).Owns y fd' → s.Owns y fd' := by
    rintro y fd' hne ⟨hy, frame', hframe', hfd'⟩
    rw [withFrame_frame, Function.update_of_ne hne] at hframe'
    refine ⟨?_, frame', hframe', hfd'⟩
    rw [← hothers y hne]
    exact hy
  have howned : ∀ {fd'}, (withFrame s.sched.created frame
      (withSched (enlisted s.sched) s)).Owns s.sched.created fd' →
        frame.fd = some fd' := by
    rintro fd' ⟨-, frame', hframe', hfd'⟩
    rw [withFrame_frame, Function.update_self, Option.some.injEq] at hframe'
    rw [hframe']
    exact hfd'
  refine ⟨hruns, h.awake, ?_, ?_, ?_, ?_⟩
  · intro y hy hlive
    by_cases hne : y = s.sched.created
    · rw [withFrame_frame, hne, Function.update_self]
      rfl
    · rw [withFrame_frame, Function.update_of_ne hne]
      apply h.framed y hy
      rw [← hothers y hne]
      exact hlive
  · intro y fd' hy hfd'
    by_cases hne : y = s.sched.created
    · rw [hne] at hfd'
      exact (hframe fd' (howned hfd')).1
    · exact h.opened y fd' hy (howns hne hfd')
  · intro y z fd' hy hz hyfd hzfd
    by_cases hne : y = s.sched.created
    · by_cases hne' : z = s.sched.created
      · rw [hne, hne']
      · rw [hne] at hyfd
        exact absurd (howns hne' hzfd)
          ((hframe fd' (howned hyfd)).2 z hz)
    · by_cases hne' : z = s.sched.created
      · rw [hne'] at hzfd
        exact absurd (howns hne hyfd) ((hframe fd' (howned hzfd)).2 y hy)
      · exact h.own y z fd' hy hz (howns hne hyfd) (howns hne' hzfd)
  · intro y hy
    have hwaiting : y ∈ s.sched.waiting := hy
    have hne : y ≠ s.sched.created := by
      rintro rfl
      exact h.sched.waiting.ne_dead h.sched.dead hwaiting
    obtain ⟨frame', hframe', hfd'⟩ := h.waits y hwaiting
    refine ⟨frame', ?_, ?_⟩
    · rw [withFrame_frame, Function.update_of_ne hne]
      exact hframe'
    · rw [hfd', withFrame_sched, withSched_sched, Tree.keyOf, Tree.keyOf,
        hothers y hne]

/-! ## Up to the next yield -/

/-- Where a coroutine stands afterwards, if it does not return. -/
def onward : Frame → Answer → List UInt8 → Option Frame
  | .server, .socket fd, _ => if fd < 0 then none else some (.accept fd)
  | .accept fd, _, _ => some (.accept fd)
  | .serverReader fd, _, _ => some (.recv fd)
  | .recv fd, .recv (.data _) ret, reply =>
      afterSend fd (sendFirst fd reply ret)
  | .recv _, .recv .closed _, _ => none
  | .recv fd, .recv .failed _, _ => some (.recv fd)
  | .send fd buf sent, .send ret, _ => afterSend fd (sendNext fd buf sent ret)
  | frame, _, _ => some frame

/-- The connection for which a coroutine is created. -/
def accepted : Answer → Option ℤ
  | .accept fd true => some fd
  | _ => none

/-- What becomes of the engines. -/
def Answered (P : Platform) (store : Server) (reply : List UInt8)
    (store' : Server) : Answer → Prop
  | .recv (.data bytes) _ => (readerRound P bytes).run store = .ok (reply, store')
  | _ => store' = store

/-- The frame of the coroutine and that of a new one. -/
def framesAfter (co : Co) (next : Option Frame) (cli : Option ℤ)
    (s : NtycoServer) : Co → Option Frame :=
  let frames := cli.elim s.frame (fun fd =>
    Function.update s.frame s.sched.created (some (.serverReader fd)))
  next.elim frames (fun frame => Function.update frames co (some frame))

/-- The running coroutine has gone on up to its next yield. -/
structure Goes (co : Co) (s : NtycoServer) (next : Option Frame)
    (cli : Option ℤ) (s' : NtycoServer) : Prop where
  frame : s'.frame = framesAfter co next cli s
  created : s'.sched.created = s.sched.created + cli.toList.length
  ready : s'.sched.ready =
    s.sched.ready ++ (cli.map (fun _ => s.sched.created)).toList
  phase : s'.sched.phase = s.sched.phase.behind co
  curr : s'.sched.currThread = none

theorem Leaves.goes {next : Option Frame} {s₀ : NtycoServer}
    (h : Leaves co s s') (hsched : s.sched = s₀.sched)
    (hframe : s'.frame = framesAfter co next none s₀) :
    Goes co s₀ next none s' := by
  refine ⟨hframe, ?_, ?_, ?_, h.curr⟩
  · rw [h.created, hsched]
    rfl
  · rw [h.ready, hsched]
    exact (List.append_nil _).symm
  · rw [h.phase, hsched]

theorem afterSend_fd {out : Frame ⊕ ℤ} {next : Frame}
    (hout : ∀ frame', out = .inl frame' → frame'.fd = some fd)
    (hnext : afterSend fd out = some next) : next.fd = some fd := by
  cases out with
  | inl frame' =>
      cases hnext
      exact hout next rfl
  | inr ret =>
      rw [afterSend] at hnext
      split_ifs at hnext
      cases hnext
      rfl

theorem sendFirst_fd {buf : List UInt8} {ret : ℤ} {frame' : Frame}
    (h : sendFirst fd buf ret = .inl frame') : frame'.fd = some fd := by
  simp only [sendFirst] at h
  split_ifs at h <;> cases h <;> rfl

theorem sendNext_fd {buf : List UInt8} {sent : ℕ} {ret : ℤ} {frame' : Frame}
    (h : sendNext fd buf sent ret = .inl frame') : frame'.fd = some fd := by
  rw [sendNext] at h
  split_ifs at h
  cases h
  rfl

theorem Connected.on_store (h : Connected among s) (store : Server) :
    Connected among (withStore store s) :=
  ⟨h.runs, h.awake, h.framed, h.opened, h.own, h.waits⟩

theorem Connected.alone (h : Connected Everyone s) (hown : s.Owns co fd) :
    ∀ x, x ≠ co → ¬ s.Owns x fd :=
  fun x hne hx => hne (h.own x co fd trivial trivial hx hown)

theorem Connected.returns_goOn {next : Option Frame}
    (h : Connected Everyone s) (hcurr : s.sched.currThread = some co)
    (hown : s.Owns co fd) (hnext : ∀ frame' ∈ next, frame'.fd = some fd) :
    Returns (goOn co fd next) s (fun _ s' => Connected Everyone s' ∧
      s'.frame = framesAfter co next none s ∧ Leaves co s s') := by
  have hothers : Connected (· ≠ co) s := h.mono (fun _ _ => trivial)
  cases next with
  | none => exact hothers.returns_close hcurr (h.alone hown)
  | some frame' =>
      exact hothers.returns_pollInner frame' hcurr (hnext frame' rfl)
        (h.opened co fd trivial hown) (h.alone hown)

/-- A connection is accepted while its server runs. -/
theorem Connected.returns_accept {cli : ℤ} {granted : Bool}
    (h : Connected Everyone s) (hcurr : s.sched.currThread = some co)
    (hown : s.Owns co fd) (hcli : 0 ≤ cli) (hfresh : cli ∉ s.sched.opened) :
    Returns (do
        if 0 ≤ cli then onSched (.openFd cli)
        createReader cli granted
        pollInner co fd (.accept fd)) s
      (fun _ s' => Connected Everyone s' ∧ s'.store = s.store ∧
        Goes co s (some (.accept fd)) (accepted (.accept cli granted)) s') := by
  have hopened := h.opened co fd trivial hown
  have halone := h.alone hown
  have hne : fd ≠ cli := by
    rintro rfl
    exact hfresh hopened
  have hnobody : ∀ x, ¬ s.Owns x cli :=
    fun x hx => hfresh (h.opened x cli trivial hx)
  simp only [if_pos hcli, returns_bind]
  apply h.returns_openFd hcurr hfresh
  intro hconnected
  simp only [createReader, returns_bind, Fallible.returns_get]
  apply returns_onSched (a := .create granted) hconnected.runs
    (by simp [Enabled, hcurr]) trivial
  intro sched' hnext hruns
  cases hnext with
  | created =>
      simp only [reduceIte, Fallible.returns_modify]
      have hcreated := hconnected.create (.serverReader cli) hruns (by
        rintro fd' hfd'
        cases hfd'
        exact ⟨Finset.mem_insert_self _ _, fun x _ hx => hnobody x hx⟩)
      have hothers : Connected (· ≠ co) _ := hcreated.mono (fun _ _ => trivial)
      have hpoll := hothers.returns_pollInner (.accept fd) hcurr rfl
        (Finset.mem_insert_of_mem hopened) (by
          rintro x hx ⟨hlive, frame', hframe', hfd'⟩
          by_cases hxnew : x = s.sched.created
          · rw [hxnew] at hframe'
            have hsame := (Function.update_self _ _ _).symm.trans hframe'
            cases hsame
            exact hne (Option.some.inj hfd').symm
          · have hframe'' : s.frame x = some frame' := by
              have hupdate := Function.update_of_ne hxnew
                (some (Frame.serverReader cli)) s.frame
              exact hupdate.symm.trans hframe'
            refine halone x hx ⟨?_, frame', hframe'', hfd'⟩
            have hsame : (enlisted (withOpened (insert cli s.sched.opened)
                s.sched)).coroutine x = s.sched.coroutine x := by
              simp [enlisted, hxnew]
            exact hsame ▸ hlive)
      apply hpoll.mono
      rintro _ s' ⟨hs', hframe, hleaves⟩
      exact ⟨hs', hleaves.store, hframe, hleaves.created, hleaves.ready,
        hleaves.phase, hleaves.curr⟩
  | refused =>
      simp only [Bool.false_eq_true, reduceIte, returns_pure]
      have hothers : Connected (· ≠ co) _ := hconnected.mono (fun _ _ => trivial)
      have hpoll := hothers.returns_pollInner (.accept fd) hcurr rfl
        (Finset.mem_insert_of_mem hopened) halone
      apply hpoll.mono
      rintro _ s' ⟨hs', hframe, hleaves⟩
      exact ⟨hs', hleaves.store, hframe, hleaves.created,
        hleaves.ready.trans (List.append_nil _).symm, hleaves.phase,
        hleaves.curr⟩

theorem running_eq_some : s.running = some (co, frame) ↔
    s.sched.currThread = some co ∧ s.frame co = some frame := by
  simp only [running, Option.bind_eq_some_iff, Option.map_eq_some_iff,
    Prod.mk.injEq]
  constructor
  · rintro ⟨x, hx, frame', hframe', rfl, rfl⟩
    exact ⟨hx, hframe'⟩
  · rintro ⟨hco, hframe⟩
    exact ⟨co, hco, frame, hframe, rfl, rfl⟩

/-- The descriptor of the running coroutine is polled once more, or closed. -/
theorem Connected.goes_on {store : Server} (h : Connected Everyone s)
    (next : Option Frame) (hcurr : s.sched.currThread = some co)
    (hframe : s.frame co = some frame) (hfd : frame.fd = some fd)
    (hnext : ∀ frame' ∈ next, frame'.fd = some fd) :
    Returns (goOn co fd next) (withStore store s) (fun _ s' =>
      Connected Everyone s' ∧ s'.store = store ∧ Goes co s next none s') := by
  have hlive : (s.sched.coroutine co).isSome := h.sched.curr co hcurr
  apply ((h.on_store store).returns_goOn hcurr ⟨hlive, frame, hframe, hfd⟩
    hnext).mono
  rintro _ s' ⟨hs', hframe', hleaves⟩
  exact ⟨hs', hleaves.store, hleaves.goes rfl hframe'⟩

/-- The running coroutine goes on without a fault, if the request that it has
received is answered. -/
theorem Connected.returns_goFrame {answer : Answer}
    (h : Connected Everyone s) (hcurr : s.sched.currThread = some co)
    (hframe : s.frame co = some frame) (hcalls : frame.Calls answer = true)
    (hpermits : Permits P s (.go answer))
    (hstore : ∀ bytes ret, answer = .recv (.data bytes) ret →
      ∃ reply store', (readerRound P bytes).run s.store =
        .ok (reply, store')) :
    Returns (goFrame P co frame answer) s (fun _ s' =>
      Connected Everyone s' ∧ ∃ reply, Answered P s.store reply s'.store answer ∧
        Goes co s (onward frame answer reply) (accepted answer) s') := by
  have hothers : Connected (· ≠ co) s := h.mono (fun _ _ => trivial)
  have hpolls : ∀ {fd' : ℤ} {frame' : Frame}, frame.fd = some fd' →
      frame'.fd = some fd' → Returns (pollInner co fd' frame') s (fun _ s' =>
        Connected Everyone s' ∧ s'.store = s.store ∧
          Goes co s (some frame') none s') := by
    intro fd' frame' hfd hfd'
    apply h.goes_on (some frame') hcurr hframe hfd
    intro x hx
    cases hx
    exact hfd'
  cases frame with
  | server =>
      cases answer with
      | socket fd =>
          simp only [goFrame, onward, accepted, Answered]
          split_ifs with hfd
          · apply (hothers.returns_exit hcurr).mono
            rintro _ s' ⟨hs', hframe', hleaves⟩
            exact ⟨hs', [], hleaves.store, hleaves.goes rfl hframe'⟩
          · rw [returns_bind]
            apply hothers.returns_openFd hcurr hpermits
            intro hopened
            have hfree : ∀ x, x ≠ co → ¬ s.Owns x fd :=
              fun x _ hx => hpermits (h.opened x fd trivial hx)
            apply (hopened.returns_pollInner (.accept fd) hcurr rfl
              (Finset.mem_insert_self _ _) hfree).mono
            rintro _ s' ⟨hs', hframe', hleaves⟩
            exact ⟨hs', [], hleaves.store, hframe', hleaves.created,
              hleaves.ready.trans (List.append_nil _).symm, hleaves.phase,
              hleaves.curr⟩
      | _ => cases hcalls
  | accept fd =>
      have hown : s.Owns co fd := ⟨h.sched.curr co hcurr, _, hframe, rfl⟩
      cases answer with
      | again =>
          apply (hpolls rfl rfl).mono
          rintro _ s' ⟨hs', hsame, hgoes⟩
          exact ⟨hs', [], hsame, hgoes⟩
      | accept cli granted =>
          apply (h.returns_accept hcurr hown hpermits.1 hpermits.2).mono
          rintro _ s' ⟨hs', hsame, hgoes⟩
          exact ⟨hs', [], hsame, hgoes⟩
      | _ => cases hcalls
  | serverReader fd =>
      cases answer with
      | start =>
          apply (hpolls rfl rfl).mono
          rintro _ s' ⟨hs', hsame, hgoes⟩
          exact ⟨hs', [], hsame, hgoes⟩
      | _ => cases hcalls
  | recv fd =>
      cases answer with
      | recv r ret =>
          cases r with
          | data bytes =>
              obtain ⟨reply, store', hrun⟩ := hstore bytes ret rfl
              simp only [goFrame, returns_bind, onStore, returns_within]
              refine ⟨reply, store', hrun, ?_⟩
              apply (h.goes_on _ hcurr hframe rfl (fun frame' hnext =>
                afterSend_fd (fun _ => sendFirst_fd) hnext)).mono
              rintro _ s' ⟨hs', hsame, hgoes⟩
              refine ⟨hs', reply, ?_, hgoes⟩
              rw [Answered, hsame]
              exact hrun
          | closed =>
              apply (h.goes_on none hcurr hframe rfl (by
                intro frame' hnext
                cases hnext)).mono
              rintro _ s' ⟨hs', hsame, hgoes⟩
              exact ⟨hs', [], hsame, hgoes⟩
          | failed =>
              apply (hpolls rfl rfl).mono
              rintro _ s' ⟨hs', hsame, hgoes⟩
              exact ⟨hs', [], hsame, hgoes⟩
      | _ => cases hcalls
  | send fd buf sent =>
      cases answer with
      | send ret =>
          apply (h.goes_on _ hcurr hframe rfl (fun frame' hnext =>
            afterSend_fd (fun _ => sendNext_fd) hnext)).mono
          rintro _ s' ⟨hs', hsame, hgoes⟩
          exact ⟨hs', [], hsame, hgoes⟩
      | _ => cases hcalls

end Connected

end NtycoServer

end CAdvanced
