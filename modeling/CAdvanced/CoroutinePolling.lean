import CAdvanced.CoroutineReplies

/-!
# When the coroutine server polls

Only coroutines that have not begun are in the ready queue of the server.  So
the queue is empty whenever the scheduler comes to the poller, every turn of the
loop blocks in `epoll_wait`, and all that it reports is handled.
-/

namespace CAdvanced

open Fallible
open KeyValue
open Transition
open Schedule
open Server

namespace NtycoServer

/-- The function of the coroutine is at its beginning. -/
def Begins (s : NtycoServer) (co : Co) : Prop :=
  ∃ frame, s.frame co = some frame ∧
    (frame = .server ∨ ∃ fd, frame = .serverReader fd)

/-- Whatever enters the ready queue leaves it in the same pass. -/
structure Polls (s : NtycoServer) : Prop where
  queued : ∀ co ∈ s.sched.ready, s.Begins co
  running : s.sched.phase.isReadying = true →
    ∀ co ∈ s.sched.currThread, s.Begins co
  last : ∀ last, s.sched.phase = .readying last →
    s.sched.ready.getLast? = last ∨
      s.sched.ready = [] ∧ s.sched.currThread = last
  polling : s.sched.phase = .polling → s.sched.ready = []

theorem polls_start (store : Server) : Polls (start store) :=
  ⟨nofun, nofun, nofun, nofun⟩

section Polls

variable {P : Platform} {s s' : NtycoServer} {m : Stores} {a : ServerAction}
  {sched' : Schedule} {co : Co} {frame : Frame} {answer : Answer}

/-- A coroutine goes on outside the pass over the ready queue. -/
theorem Polls.resume {phase : Phase} (h : Polls s)
    (hsame : sched'.phase = s.sched.phase)
    (hready : sched'.ready = s.sched.ready) (hphase : s.sched.phase = phase)
    (hreadying : phase.isReadying = false) (hpolling : phase ≠ .polling) :
    Polls (withSched sched' s) := by
  rw [hphase] at hsame
  refine ⟨?_, ?_, ?_, ?_⟩
  · intro co hco
    rw [withSched_sched, hready] at hco
    exact h.queued co hco
  · intro hreadies
    rw [withSched_sched, hsame, hreadying] at hreadies
    cases hreadies
  · intro last hlast
    rw [withSched_sched, hsame] at hlast
    rw [hlast] at hreadying
    cases hreadying
  · intro hpolls
    rw [withSched_sched, hsame] at hpolls
    exact absurd hpolls hpolling

theorem Polls.loop {b : Action} (h : Polls s) (hloop : isLoop b = true)
    (hnext : Next s.sched b sched') : Polls (withSched sched' s) := by
  cases hnext with
  | tick => exact ⟨h.queued, h.running, h.last, h.polling⟩
  | turn hcurr =>
      refine ⟨h.queued, ?_, ?_, ?_⟩
      · intro _ co hco
        change co ∈ s.sched.currThread at hco
        rw [hcurr] at hco
        cases hco
      · intro last hlast
        rw [withSched_sched, withPhase_phase] at hlast
        split_ifs at hlast
      · intro hpolling
        rw [withSched_sched, withPhase_phase] at hpolling
        split_ifs at hpolling
  | expired _ hphase => exact h.resume rfl rfl hphase rfl nofun
  | roused _ hphase => exact h.resume rfl rfl hphase rfl nofun
  | unexpired hcurr =>
      refine ⟨h.queued, ?_, ?_, nofun⟩
      · intro _ co hco
        change co ∈ s.sched.currThread at hco
        rw [hcurr] at hco
        cases hco
      · intro last hlast
        exact .inl (Phase.readying.inj hlast)
  | emptied hcurr hphase hready =>
      exact ⟨h.queued, nofun, nofun, fun _ => hready⟩
  | @picked co c c' rest hcurr hphase hready =>
      have hbegins := h.queued co (by rw [hready]; exact List.mem_cons_self)
      refine ⟨?_, ?_, ?_, ?_⟩
      · intro x hx
        apply h.queued x
        rw [hready]
        exact List.mem_cons_of_mem co hx
      · intro _ x hx
        cases hx
        exact hbegins
      · intro last hlast
        rcases h.last last hlast with heq | ⟨hnil, -⟩
        · rw [hready] at heq
          cases rest with
          | nil => exact .inr ⟨rfl, heq⟩
          | cons y rest =>
              rw [List.getLast?_cons_cons] at heq
              exact .inl heq
        · rw [hready] at hnil
          cases hnil
      · intro hpolling
        change s.sched.phase = .polling at hpolling
        rw [hpolling] at hphase
        cases hphase
  | polled hcurr => exact ⟨h.queued, nofun, nofun, nofun⟩
  | dispatched hcurr => exact ⟨h.queued, nofun, nofun, nofun⟩
  | handled _ hphase => exact h.resume rfl rfl hphase rfl nofun
  | _ => cases hloop

theorem behind_eq_polling {phase : Phase} (h : phase.behind co = .polling)
    (hphase : phase ≠ .polling) : phase = .readying (some co) := by
  cases phase with
  | readying last =>
      rw [Phase.behind] at h
      split_ifs at h with hlast
      rw [hlast]
  | polling => exact absurd rfl hphase
  | _ => cases h

/-- Only where a connection is accepted a coroutine is created. -/
theorem accepted_of_begins (hframe : s.frame co = some frame)
    (hcalls : frame.Calls answer = true) (hbegins : s.Begins co) :
    accepted answer = none := by
  obtain ⟨frame', hframe', hbegins⟩ := hbegins
  rw [hframe, Option.some.injEq] at hframe'
  subst hframe'
  rcases hbegins with rfl | ⟨fd, rfl⟩ <;>
    cases answer <;> first | rfl | cases hcalls

theorem Polls.go {next : Option Frame} (h : Polls s)
    (hconnected : Connected Everyone s)
    (hcurr : s.sched.currThread = some co) (hframe : s.frame co = some frame)
    (hcalls : frame.Calls answer = true)
    (hgoes : Goes co s next (accepted answer) s') : Polls s' := by
  obtain ⟨_, _, hready, -⟩ := hconnected.sched.running hcurr
  have hnot : co ≠ s.sched.created := by
    intro heq
    exact hconnected.born hcurr heq.ge
  have hqueued : ∀ x ∈ s'.sched.ready, s'.Begins x := by
    intro x hx
    rw [hgoes.ready, List.mem_append] at hx
    rcases hx with hx | hx
    · have hne : x ≠ co := by
        rintro rfl
        exact hready hx
      obtain ⟨frame', hframe', hbegins⟩ := h.queued x hx
      refine ⟨frame', ?_, hbegins⟩
      rw [hgoes.frame_of_ne hne]
      · exact hframe'
      · rintro rfl
        exact absurd hx
          (hconnected.sched.ready.ne_dead hconnected.sched.dead)
    · cases hcli : accepted answer with
      | none =>
          rw [hcli] at hx
          cases hx
      | some fd =>
          rw [hcli] at hx hgoes
          rw [List.mem_singleton.mp hx]
          exact ⟨_, hgoes.frame_new hnot, .inr ⟨fd, rfl⟩⟩
  -- in a pass over the ready queue nobody is created
  have hsame : s.sched.phase.isReadying = true →
      s'.sched.ready = s.sched.ready := by
    intro hreadying
    have hnone := accepted_of_begins hframe hcalls
      (h.running hreadying co hcurr)
    rw [hgoes.ready, hnone]
    exact List.append_nil _
  refine ⟨hqueued, ?_, ?_, ?_⟩
  · intro _ x hx
    rw [hgoes.curr] at hx
    cases hx
  · intro last hlast
    rw [hgoes.phase] at hlast
    obtain ⟨hphase, hne⟩ := behind_eq_readying hlast
    rw [hsame (by rw [hphase]; rfl)]
    rcases h.last last hphase with heq | ⟨-, heq⟩
    · exact .inl heq
    · exact absurd (heq.symm.trans hcurr) hne
  · intro hpolling
    rw [hgoes.phase] at hpolling
    have hphase := behind_eq_polling hpolling (by
      intro heq
      rcases hconnected.runs.loops.running (by rw [hcurr]; rfl) with
          hrun | hrun | hrun <;>
        rw [heq] at hrun <;> cases hrun)
    rw [hsame (by rw [hphase]; rfl)]
    rcases h.last (some co) hphase with heq | ⟨hnil, -⟩
    · exact absurd (List.mem_of_getLast? heq) hready
    · exact hnil

theorem Moves.polls (hconnected : Connected Everyone s) (h : Polls s)
    (hmoves : Moves P s a s') : Polls s' := by
  cases hmoves with
  | entry hphase =>
      refine ⟨?_, nofun, nofun, nofun⟩
      intro x hx
      rcases List.mem_append.mp hx with hx | hx
      · obtain ⟨frame', hframe', hbegins⟩ := h.queued x hx
        have hne : x ≠ s.sched.created := by
          rintro rfl
          exact hconnected.sched.ready.ne_dead hconnected.sched.dead hx
        exact ⟨frame', (Function.update_of_ne hne _ _).trans hframe', hbegins⟩
      · rw [List.mem_singleton.mp hx]
        exact ⟨_, Function.update_self _ _ _, .inl rfl⟩
  | refused => exact ⟨h.queued, nofun, nofun, nofun⟩
  | loop hloop hnext => exact h.loop hloop hnext
  | go hcurr hframe hcalls _ hgoes =>
      exact h.go hconnected hcurr hframe hcalls hgoes

end Polls

section Runs

variable {P : Platform} {s : NtycoServer}

/-- The server never spins: each time it comes to the poller nobody else can go
on, it blocks for as long as the timeout is, and handles all that is
reported. -/
theorem ntycoServer_polls (P : Platform) (hP : P.Succeeds) (store : Server)
    (hstore : ∃ m, ServerHolds P store m) :
    ∀ s batch s', Reach (serverStep P) (Permits P) (start store) s →
      serverStep P s (.loop (.epoll batch)) = some s' →
      s.sched.ready = [] ∧ s.sched.minTimeout = defaultTimeout ∧
        s'.sched.eventlist = batch.reverse := by
  intro s batch s' hs hstep
  obtain ⟨m₀, hm₀⟩ := hstore
  have hall : Polls s ∧ ∃ m, Serving P s m := by
    apply hs.invariant ⟨polls_start store, m₀, connected_start store, hm₀⟩
    rintro s a s' ⟨hpolls, m, hserving⟩ hpermits hstep
    obtain ⟨-, hmoves⟩ := hserving.step hP hpermits hstep
    exact ⟨hmoves.polls hserving.connected hpolls, _,
      hserving.next hP hpermits hstep⟩
  obtain ⟨hpolls, m, hserving⟩ := hall
  obtain ⟨-, hmoves⟩ := hserving.step hP
    (a := .loop (.epoll batch)) trivial hstep
  cases hmoves with
  | loop hloop hnext =>
      cases hnext with
      | polled hcurr hphase hreported =>
          have hready := hpolls.polling hphase
          have htimeout : s.sched.minTimeout = defaultTimeout := by
            rw [minTimeout, hserving.connected.awake]
            rfl
          have hblocks : s.sched.minTimeout ≠ 0 := by
            rw [htimeout]
            decide
          refine ⟨hready, htimeout, ?_⟩
          exact if_pos ⟨hblocks, hready⟩

theorem ntycoServer_polls_sample : ∃ s s',
    serverStep samplePlatform s (.loop (.epoll [⟨3, false⟩, ⟨4, false⟩])) =
      some s' ∧
    s.sched.ready = [] ∧ s.sched.minTimeout = defaultTimeout ∧
    s'.sched.eventlist = [⟨4, false⟩, ⟨3, false⟩] := by
  let batch : List PollEvent := [⟨3, false⟩, ⟨4, false⟩]
  obtain ⟨s, hrun⟩ := Option.isSome_iff_exists.mp
    (by decide +kernel : (execute (serverStep samplePlatform) sampleAccept
      (start sampleStore)).isSome)
  have hs := Reach.start.execute sampleAccept (by decide +kernel :
    Heeds (serverStep samplePlatform) (Permits samplePlatform) sampleAccept
      (start sampleStore)) hrun
  have hsome : ∀ u ∈ execute (serverStep samplePlatform) sampleAccept
      (start sampleStore),
      (serverStep samplePlatform u (.loop (.epoll batch))).isSome := by
    decide +kernel
  obtain ⟨s', hs'⟩ := Option.isSome_iff_exists.mp (hsome s hrun)
  exact ⟨s, s', hs', ntycoServer_polls samplePlatform samplePlatform_succeeds
    sampleStore ⟨_, sampleStore_holds⟩ s batch s' hs hs'⟩

/-- The kernel can always answer. -/
theorem Connected.exists_answer {co : Co} (h : Connected Everyone s)
    (hcurr : s.sched.currThread = some co) :
    ∃ answer, s.CanDo (.go answer) = true ∧ s.Permits P (.go answer) := by
  obtain ⟨frame, hframe⟩ := Option.isSome_iff_exists.mp
    (h.framed co trivial (h.sched.curr co hcurr))
  have hcan : ∀ {answer}, frame.Calls answer = true →
      s.CanDo (.go answer) = true := by
    intro answer hcalls
    rw [CanDo, running_eq_some.mpr ⟨hcurr, hframe⟩]
    exact hcalls
  cases frame with
  | server =>
      obtain ⟨fd, hfd⟩ := Infinite.exists_notMem_finset s.sched.opened
      exact ⟨.socket fd, hcan rfl, hfd⟩
  | accept fd => exact ⟨.again, hcan rfl, trivial⟩
  | serverReader fd => exact ⟨.start, hcan rfl, trivial⟩
  | recv fd => exact ⟨.recv .closed 0, hcan rfl, trivial⟩
  | send fd buf sent => exact ⟨.send 0, hcan rfl, trivial⟩

def isClock : ServerAction → Bool
  | .loop (.tick _) => true
  | _ => false

/-- The server goes on, whoever runs, until the loop of the scheduler has
returned. -/
theorem ntycoServer_progress (P : Platform) (hP : P.Succeeds) (store : Server)
    (hstore : ∃ m, ServerHolds P store m) :
    ∀ s, Reach (serverStep P) (Permits P) (start store) s →
      s.sched.phase ≠ .done →
      ∃ a s', isClock a = false ∧ s.Permits P a ∧
        serverStep P s a = some s' := by
  intro s hs hdone
  obtain ⟨hconnected, -, hsteps⟩ := ntycoServer_safe P hP store hstore s hs
  have hstep : ∀ a, s.CanDo a = true → s.Permits P a →
      isClock a = false →
      ∃ a s', isClock a = false ∧ s.Permits P a ∧
        serverStep P s a = some s' := by
    intro a hcan hpermits hne
    obtain ⟨s', hs'⟩ := hsteps a hcan hpermits
    exact ⟨a, s', hne, hpermits, hs'⟩
  cases hcurr : s.sched.currThread with
  | some co =>
      obtain ⟨answer, hcan, hpermits⟩ :=
        hconnected.exists_answer (P := P) hcurr
      exact hstep _ hcan hpermits rfl
  | none =>
      cases hphase : s.sched.phase with
      | idle => exact hstep (.entry true) (by simp [CanDo, hphase]) trivial rfl
      | turning =>
          exact hstep (.loop .turn)
            (by simp [CanDo, isLoop, Enabled, hcurr, hphase]) trivial rfl
      | expiring =>
          exact hstep (.loop .expire)
            (by simp [CanDo, isLoop, Enabled, hcurr, hphase]) trivial rfl
      | readying last =>
          exact hstep (.loop .ready)
            (by simp [CanDo, isLoop, Enabled, hcurr, hphase, Phase.isReadying])
            trivial rfl
      | polling =>
          exact hstep (.loop (.epoll []))
            (by simp [CanDo, isLoop, Enabled, hcurr, hphase, Reported])
            trivial rfl
      | dispatching =>
          exact hstep (.loop .dispatch)
            (by simp [CanDo, isLoop, Enabled, hcurr, hphase]) trivial rfl
      | done => exact absurd hphase hdone

theorem ntycoServer_progress_sample : ∃ s a s',
    s.sched.currThread = some 1 ∧ isClock a = false ∧
    s.Permits samplePlatform a ∧ serverStep samplePlatform s a = some s' := by
  let actions : List ServerAction := sampleAccept ++
    [.loop (.epoll [⟨4, false⟩]), .loop .dispatch]
  obtain ⟨s, hrun⟩ := Option.isSome_iff_exists.mp
    (by decide +kernel : (execute (serverStep samplePlatform) actions
      (start sampleStore)).isSome)
  have hs := Reach.start.execute actions (by decide +kernel :
    Heeds (serverStep samplePlatform) (Permits samplePlatform) actions
      (start sampleStore)) hrun
  have hplace : ∀ u ∈ execute (serverStep samplePlatform) actions
      (start sampleStore),
      u.sched.currThread = some 1 ∧ u.sched.phase ≠ .done := by
    decide +kernel
  obtain ⟨hcurr, hdone⟩ := hplace s hrun
  obtain ⟨a, s', hnext⟩ := ntycoServer_progress samplePlatform
    samplePlatform_succeeds sampleStore ⟨_, sampleStore_holds⟩ s hs hdone
  exact ⟨s, a, s', hcurr, hnext⟩

end Runs

end NtycoServer

end CAdvanced
