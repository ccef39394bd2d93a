import CAdvanced.ObservedRuns
import CAdvanced.ScheduleSteps

/-!
# Runs of the scheduler

What holds in every run: the coroutines have their places and nothing faults, a
turn of the loop resumes whom it has to, a sleep lasts as long as was asked for,
and the loop ends when nobody is left.
-/

namespace CAdvanced

open Fallible
open Transition
open RedBlack

namespace Schedule

/-! ## Places -/

theorem inv_create (opened : Finset ℤ) : Inv (create opened) where
  placed := nofun
  ready := nofun
  waiting := nofun
  sleeping := nofun
  curr := nofun
  fresh := fun _ _ => rfl
  readyNodup := List.nodup_nil
  watches := ⟨List.Pairwise.nil, by simp [create]⟩
  sleepers := ⟨List.Pairwise.nil, nofun, nofun⟩
  spawned := rfl
  awaited := ⟨List.nodup_nil, nofun, nofun⟩

/-- The states of the runs in which the callers keep to their rules. -/
abbrev Runs (opened : Finset ℤ) : Schedule → Prop :=
  Reach scheduleStep Obeys (create opened)

section Runs

variable {opened : Finset ℤ} {s s' t : Schedule} {co : Co} {a : Action}
  {actions : List Action}

theorem Runs.inv (h : Runs opened s) : Inv s :=
  h.invariant (inv_create opened)
    (fun _ _ _ hs hobeys hstep => hs.next hobeys (hs.step hobeys hstep))

/-- Where the loop can be. -/
structure Loops (s : Schedule) : Prop where
  running : s.currThread.isSome →
    s.phase = .expiring ∨ s.phase.isReadying = true ∨ s.phase = .dispatching
  last : ∀ co, s.phase = .readying (some co) →
    co ∈ s.ready ∨ s.currThread = some co
  empty : s.phase = .readying none → s.ready = [] ∧ s.currThread = none
  done : s.phase = .done → s.ready = [] ∧ s.waiting = [] ∧ s.sleeping = []

theorem loops_create (opened : Finset ℤ) : Loops (create opened) :=
  ⟨nofun, nofun, nofun, nofun⟩

theorem behind_eq_readying {phase : Phase} {last : Option Co}
    (h : phase.behind co = .readying last) :
    phase = .readying last ∧ last ≠ some co := by
  cases phase with
  | readying last' =>
      rw [Phase.behind] at h
      split_ifs at h with hlast
      cases h
      exact ⟨rfl, hlast⟩
  | _ => cases h

theorem behind_eq_done {phase : Phase} (h : phase.behind co = .done) :
    phase = .done := by
  cases phase with
  | readying last =>
      rw [Phase.behind] at h
      split_ifs at h
  | _ => exact h

theorem Loops.not_done (h : Loops s)
    (hcurr : s.currThread.isSome ∨ s.phase = .idle) : s.phase ≠ .done := by
  intro hdone
  rcases hcurr with hsome | hidle
  · rcases h.running hsome with hphase | hphase | hphase <;>
      rw [hdone] at hphase <;> cases hphase
  · rw [hdone] at hidle
    cases hidle

/-- The running coroutine yields. -/
theorem Loops.leave (h : Loops s) (hcurr : s.currThread = some co)
    (hphase : s'.phase = s.phase.behind co) (hcurr' : s'.currThread = none)
    (hready : ∀ x ∈ s.ready, x ∈ s'.ready) : Loops s' := by
  have hsome : s.currThread.isSome := by
    rw [hcurr]
    rfl
  refine ⟨?_, ?_, ?_, ?_⟩
  · intro hsome'
    rw [hcurr'] at hsome'
    cases hsome'
  · intro x hx
    rw [hphase] at hx
    obtain ⟨hlast, hne⟩ := behind_eq_readying hx
    rcases h.last x hlast with hmem | heq
    · exact .inl (hready x hmem)
    · exact absurd (heq.symm.trans hcurr) hne
  · intro hx
    rw [hphase] at hx
    obtain ⟨hlast, -⟩ := behind_eq_readying hx
    have hnone := (h.empty hlast).2
    rw [hcurr] at hnone
    cases hnone
  · intro hx
    rw [hphase] at hx
    exact absurd (behind_eq_done hx) (h.not_done (.inl hsome))

/-- It goes on, or `main` calls the scheduler. -/
theorem Loops.stay (h : Loops s) (hphase : s'.phase = s.phase)
    (hcurr : s'.currThread = s.currThread)
    (hactive : s.currThread.isSome ∨ s.phase = .idle)
    (hready : ∀ x ∈ s.ready, x ∈ s'.ready) : Loops s' := by
  refine ⟨?_, ?_, ?_, ?_⟩
  · rw [hphase, hcurr]
    exact h.running
  · intro x hx
    rw [hphase] at hx
    rw [hcurr]
    exact (h.last x hx).imp_left (hready x)
  · intro hx
    rw [hphase] at hx
    rcases hactive with hsome | hidle
    · rw [(h.empty hx).2] at hsome
      cases hsome
    · rw [hidle] at hx
      cases hx
  · intro hx
    rw [hphase] at hx
    exact absurd hx (h.not_done hactive)

theorem Loops.next (h : Loops s) (hnext : Next s a s') : Loops s' := by
  have hisSome : ∀ {x}, s.currThread = some x → s.currThread.isSome := by
    intro x hx
    rw [hx]
    rfl
  cases hnext with
  | tick => exact ⟨h.running, h.last, h.empty, h.done⟩
  | run hcurr =>
      refine ⟨?_, nofun, nofun, nofun⟩
      intro hsome
      rw [withPhase_currThread, hcurr] at hsome
      cases hsome
  | turn hcurr =>
      refine ⟨?_, ?_, ?_, ?_⟩
      · intro hsome
        rw [withPhase_currThread, hcurr] at hsome
        cases hsome
      · intro x hx
        rw [withPhase_phase] at hx
        split_ifs at hx
      · intro hx
        rw [withPhase_phase] at hx
        split_ifs at hx
      · intro hx
        rw [withPhase_phase] at hx
        split_ifs at hx with hisdone
        simp only [scheduleIsdone, Bool.and_eq_true,
          List.isEmpty_iff] at hisdone
        exact ⟨hisdone.2, hisdone.1.1, hisdone.1.2⟩
  | expired _ hphase =>
      have hphase' : ∀ {phase}, phase ≠ .expiring → s.phase ≠ phase := by
        intro phase hne heq
        exact hne (heq.symm.trans hphase)
      exact ⟨fun _ => .inl hphase, fun x hx => absurd hx (hphase' nofun),
        fun hx => absurd hx (hphase' nofun),
        fun hx => absurd hx (hphase' nofun)⟩
  | roused _ hphase =>
      have hphase' : ∀ {phase}, phase ≠ .expiring → s.phase ≠ phase := by
        intro phase hne heq
        exact hne (heq.symm.trans hphase)
      exact ⟨fun _ => .inl hphase, fun x hx => absurd hx (hphase' nofun),
        fun hx => absurd hx (hphase' nofun),
        fun hx => absurd hx (hphase' nofun)⟩
  | unexpired hcurr =>
      refine ⟨?_, ?_, ?_, nofun⟩
      · intro hsome
        rw [withPhase_currThread, hcurr] at hsome
        cases hsome
      · intro x hx
        rw [withPhase_phase, Phase.readying.injEq] at hx
        exact .inl (List.mem_of_getLast? hx)
      · intro hx
        rw [withPhase_phase, Phase.readying.injEq,
          List.getLast?_eq_none_iff] at hx
        exact ⟨hx, hcurr⟩
  | emptied hcurr =>
      refine ⟨?_, nofun, nofun, nofun⟩
      intro hsome
      rw [withPhase_currThread, hcurr] at hsome
      cases hsome
  | picked hcurr hphase hready =>
      refine ⟨fun _ => .inr (.inl hphase), ?_, ?_, ?_⟩
      · intro x hx
        rcases h.last x hx with hmem | heq
        · rw [hready, List.mem_cons] at hmem
          rcases hmem with rfl | hmem
          · exact .inr rfl
          · exact .inl hmem
        · rw [hcurr] at heq
          cases heq
      · intro hx
        have hnil := (h.empty hx).1
        rw [hready] at hnil
        cases hnil
      · intro hx
        have hdone : s.phase = .done := hx
        rw [hdone] at hphase
        cases hphase
  | polled hcurr =>
      refine ⟨?_, nofun, nofun, nofun⟩
      intro hsome
      rw [withPhase_currThread, withEventlist_currThread, hcurr] at hsome
      cases hsome
  | dispatched hcurr =>
      refine ⟨?_, nofun, nofun, nofun⟩
      intro hsome
      rw [withPhase_currThread, hcurr] at hsome
      cases hsome
  | handled _ hphase =>
      have hphase' : ∀ {phase}, phase ≠ .dispatching → s.phase ≠ phase := by
        intro phase hne heq
        exact hne (heq.symm.trans hphase)
      exact ⟨fun _ => .inr (.inr hphase), fun x hx => absurd hx (hphase' nofun),
        fun hx => absurd hx (hphase' nofun),
        fun hx => absurd hx (hphase' nofun)⟩
  | created hactive =>
      exact h.stay rfl rfl hactive (fun x hx => List.mem_append_left _ hx)
  | refused => exact h
  | yielded hcurr =>
      exact h.leave hcurr rfl rfl (fun x hx => List.mem_append_left _ hx)
  | slept hcurr => exact h.stay rfl rfl (.inl (hisSome hcurr)) (fun _ => id)
  | counted hcurr => exact h.stay rfl rfl (.inl (hisSome hcurr)) (fun _ => id)
  | reniced hcurr =>
      exact h.leave hcurr rfl rfl (fun x hx => List.mem_append_left _ hx)
  | detached hcurr => exact h.stay rfl rfl (.inl (hisSome hcurr)) (fun _ => id)
  | parked hcurr => exact h.leave hcurr rfl rfl (fun _ => id)
  | rested hcurr => exact h.leave hcurr rfl rfl (fun _ => id)
  | retired hcurr => exact h.leave hcurr rfl rfl (fun _ => id)
  | opened hcurr => exact h.stay rfl rfl (.inl hcurr) (fun _ => id)
  | closed hcurr => exact h.stay rfl rfl (.inl hcurr) (fun _ => id)

theorem Runs.loops (h : Runs opened s) : Loops s := by
  have hboth : Inv s ∧ Loops s := by
    apply h.invariant ⟨inv_create opened, loops_create opened⟩
    rintro s a s' ⟨hs, hloops⟩ hobeys hstep
    have hnext := hs.step hobeys hstep
    exact ⟨hs.next hobeys hnext, hloops.next hnext⟩
  exact hboth.2

/-- When the loop returns, no block of a coroutine is left. -/
theorem scheduleRun_frees (opened : Finset ℤ) :
    ∀ s, Runs opened s → s.phase = .done →
      s.spawned = 0 ∧ ∀ co, s.coroutine co = none := by
  intro s hs hdone
  obtain ⟨hready, hwaiting, hsleeping⟩ := hs.loops.done hdone
  have hdead : ∀ co, s.coroutine co = none := by
    intro co
    by_contra hlive
    obtain ⟨c, hc⟩ := Option.ne_none_iff_exists'.mp hlive
    cases hs.inv.placed co c hc with
    | running hcurr =>
        have hsome : s.currThread.isSome := by
          rw [hcurr]
          rfl
        exact hs.loops.not_done (.inl hsome) hdone
    | queued _ hmem =>
        rw [hready] at hmem
        cases hmem
    | parked _ _ hmem =>
        rw [hwaiting] at hmem
        cases hmem
    | resting _ _ _ hmem =>
        rw [hsleeping] at hmem
        cases hmem
  refine ⟨?_, hdead⟩
  rw [hs.inv.spawned, live]
  simp [hdead]

theorem scheduleRun_frees_single : ∃ s, Runs ∅ s ∧ s.created = 1 ∧
    s.spawned = 0 ∧ ∀ co, s.coroutine co = none := by
  let actions : List Action := [.create true, .run, .turn, .expire, .ready,
    .exit, .epoll [], .dispatch, .turn]
  obtain ⟨s, hrun⟩ := Option.isSome_iff_exists.mp
    (by decide +kernel : (execute scheduleStep actions (create ∅)).isSome)
  have hs : Runs ∅ s := Reach.start.execute actions (by decide +kernel) hrun
  have hdone : ∀ u ∈ execute scheduleStep actions (create ∅),
      u.created = 1 ∧ u.phase = .done := by
    decide +kernel
  obtain ⟨hcreated, hphase⟩ := hdone s hrun
  exact ⟨s, hs, hcreated, scheduleRun_frees ∅ s hs hphase⟩

/-! ## Who is resumed -/

/-- The coroutine to which a step hands over. -/
def resumes (s : Schedule) (a : Action) : Option Co :=
  if s.currThread = none then (scheduleStep s a).bind currThread else none

/-- The coroutines that a schedule of actions resumes. -/
abbrev resumed : List Action → Schedule → List Co :=
  observed scheduleStep (fun s a => (resumes s a).toList)

theorem resumes_of_step (hstep : scheduleStep s a = some s') :
    resumes s a = if s.currThread = none then s'.currThread else none := by
  rw [resumes, hstep]
  rfl

def Action.isEpoll : Action → Bool
  | .epoll _ => true
  | _ => false

/-- The elements of a list up to a last one. -/
def upTo (last : Co) : List Co → List Co
  | [] => []
  | co :: rest => if co = last then [co] else co :: upTo last rest

theorem upTo_append {l m : List Co} (h : co ∈ l) :
    upTo co (l ++ m) = upTo co l := by
  induction l with
  | nil => cases h
  | cons x l ih =>
      rw [List.cons_append, upTo, upTo]
      split_ifs with hx
      · rfl
      · have hmem := (List.mem_cons.mp h).resolve_left (Ne.symm hx)
        rw [ih hmem]

theorem upTo_getLast {l : List Co} (hnodup : l.Nodup)
    (hlast : l.getLast? = some co) : upTo co l = l := by
  induction l with
  | nil => cases hlast
  | cons x l ih =>
      obtain ⟨hx, hl⟩ := List.nodup_cons.mp hnodup
      cases l with
      | nil =>
          cases hlast
          simp [upTo]
      | cons y l =>
          rw [List.getLast?_cons_cons] at hlast
          have hne : x ≠ co := by
            rintro rfl
            exact hx (List.mem_of_getLast? hlast)
          rw [upTo, if_neg hne, ih hl hlast]

/-- Whom the loop over the ready queue is still going to resume. -/
def due (s : Schedule) : List Co :=
  match s.phase with
  | .readying (some last) => if last ∈ s.ready then upTo last s.ready else []
  | _ => []

theorem due_of_readying {last : Option Co} (h : s.phase = .readying last) :
    s.due = last.elim []
      (fun co => if co ∈ s.ready then upTo co s.ready else []) := by
  rw [due, h]
  cases last <;> rfl

theorem due_of_polling (h : s.phase = .polling) : s.due = [] := by
  rw [due, h]

/-- The loop over the ready queue runs, or it has ended. -/
def Readies (s : Schedule) : Prop :=
  s.phase.isReadying = true ∨ s.phase = .polling

theorem Readies.ne {phase : Phase} (h : s.Readies) (hphase : s.phase = phase)
    (hreadying : phase.isReadying = false) (hpolling : phase ≠ .polling) :
    False := by
  rcases h with hs | hs
  · rw [hphase, hreadying] at hs
    cases hs
  · exact hpolling (hphase.symm.trans hs)

theorem Loops.readying (h : Loops s) (hs : s.Readies)
    (hsome : s.currThread.isSome) : ∃ last, s.phase = .readying (some last) := by
  have hreadying : s.phase.isReadying = true := by
    rcases hs with hs | hs
    · exact hs
    · rcases h.running hsome with hphase | hphase | hphase
      · rw [hs] at hphase
        cases hphase
      · exact hphase
      · rw [hs] at hphase
        cases hphase
  cases hphase : s.phase with
  | readying last =>
      cases last with
      | some last => exact ⟨last, rfl⟩
      | none =>
          rw [(h.empty hphase).2] at hsome
          cases hsome
  | _ =>
      rw [hphase] at hreadying
      cases hreadying

theorem due_append {last : Co} {l : List Co} (hlast : last ∉ l)
    (hphase : s.phase = .readying (some last)) (hphase' : s'.phase = s.phase)
    (hready : s'.ready = s.ready ++ l) : s'.due = s.due := by
  rw [due_of_readying hphase, due_of_readying (hphase'.trans hphase), hready]
  simp only [Option.elim_some, List.mem_append, hlast, or_false]
  split_ifs with hmem
  · exact upTo_append hmem
  · rfl

/-- The running coroutine was resumed already. -/
theorem Loops.due_leave {l : List Co} (h : Loops s) (hs : s.Readies)
    (hcurr : s.currThread = some co) (hready : co ∉ s.ready)
    (hphase' : s'.phase = s.phase.behind co)
    (hready' : s'.ready = s.ready ++ l) (hl : ∀ x ∈ l, x = co) :
    s'.due = s.due := by
  obtain ⟨last, hphase⟩ := h.readying hs (by rw [hcurr]; rfl)
  rw [hphase, Phase.behind] at hphase'
  by_cases hlast : last = co
  · subst hlast
    rw [if_pos rfl] at hphase'
    rw [due_of_polling hphase', due_of_readying hphase]
    simp [hready]
  · rw [if_neg (by simpa using hlast), ← hphase] at hphase'
    exact due_append (fun hmem => hlast (hl last hmem)) hphase hphase' hready'

theorem Loops.readies_leave (h : Loops s) (hs : s.Readies)
    (hcurr : s.currThread = some co)
    (hphase' : s'.phase = s.phase.behind co) : s'.Readies := by
  obtain ⟨last, hphase⟩ := h.readying hs (by rw [hcurr]; rfl)
  rw [hphase, Phase.behind] at hphase'
  split_ifs at hphase'
  · exact .inr hphase'
  · exact .inl (by rw [hphase']; rfl)

/-- A step of the loop over the ready queue resumes the next coroutine that is
due, or none. -/
theorem Next.due (hinv : Inv s) (h : Loops s) (hs : s.Readies)
    (hnext : Next s a s') (hepoll : a.isEpoll = false) :
    (if s.currThread = none then s'.currThread else none).toList ++ s'.due =
        s.due ∧ s'.Readies := by
  have hrunning : ∀ {x}, s.currThread = some x → x ∉ s.ready := by
    intro x hx
    obtain ⟨-, -, hready, -⟩ := hinv.running hx
    exact hready
  -- the running coroutine goes on
  have hstays : ∀ {x} {u : Schedule}, s.currThread = some x →
      u.phase = s.phase → u.ready = s.ready →
        (if s.currThread = none then u.currThread else none).toList ++ u.due =
          s.due ∧ u.Readies := by
    intro x u hx hphase hready
    obtain ⟨last, hlast⟩ := h.readying hs (by rw [hx]; rfl)
    refine ⟨?_, by rw [Readies, hphase]; exact hs⟩
    rw [if_neg (by rw [hx]; exact nofun)]
    exact due_append (l := []) List.not_mem_nil hlast hphase
      (by rw [hready, List.append_nil])
  -- it yields
  have hleaves : ∀ {x} {u : Schedule} {l}, s.currThread = some x →
      u.phase = s.phase.behind x → u.ready = s.ready ++ l →
        (∀ y ∈ l, y = x) →
          (if s.currThread = none then u.currThread else none).toList ++ u.due =
            s.due ∧ u.Readies := by
    intro x u l hx hphase hready hl
    refine ⟨?_, h.readies_leave hs hx hphase⟩
    rw [if_neg (by rw [hx]; exact nofun)]
    exact h.due_leave hs hx (hrunning hx) hphase hready hl
  cases hnext with
  | tick =>
      refine ⟨?_, hs⟩
      have hnone : (if s.currThread = none then s.currThread else none) =
          none := by
        split_ifs with hcurr
        · exact hcurr
        · rfl
      simp only [withElapsed_currThread, hnone]
      rfl
  | run _ hphase => exact (hs.ne hphase rfl nofun).elim
  | turn _ hphase => exact (hs.ne hphase rfl nofun).elim
  | expired _ hphase => exact (hs.ne hphase rfl nofun).elim
  | roused _ hphase => exact (hs.ne hphase rfl nofun).elim
  | unexpired _ hphase => exact (hs.ne hphase rfl nofun).elim
  | emptied hcurr hphase hready =>
      refine ⟨?_, .inr rfl⟩
      cases hlast : s.phase with
      | readying last =>
          rw [due_of_readying hlast, due_of_polling rfl, hready]
          cases last <;> simp [hcurr]
      | _ =>
          rw [hlast] at hphase
          cases hphase
  | @picked co c c' rest hcurr hphase hready =>
      refine ⟨?_, .inl hphase⟩
      have hnodup := hinv.readyNodup
      rw [hready, List.nodup_cons] at hnodup
      cases hlast : s.phase with
      | readying last =>
          cases last with
          | none =>
              rw [(h.empty hlast).1] at hready
              cases hready
          | some last =>
              have hmem : last ∈ co :: rest := by
                rcases h.last last hlast with hmem | heq
                · rwa [hready] at hmem
                · rw [hcurr] at heq
                  cases heq
              have hphase' : (Schedule.picked co c' rest s).phase =
                  .readying (some last) := hlast
              have hready' : (Schedule.picked co c' rest s).ready = rest := rfl
              rw [if_pos hcurr, due_of_readying hlast,
                due_of_readying hphase', hready, hready']
              simp only [Option.elim_some, if_pos hmem, upTo]
              change [co] ++ _ = _
              by_cases heq : co = last
              · rw [if_pos heq, if_neg (heq ▸ hnodup.1)]
                rfl
              · have hrest :=
                  (List.mem_cons.mp hmem).resolve_left (Ne.symm heq)
                rw [if_neg heq, if_pos hrest]
                rfl
      | _ =>
          rw [hlast] at hphase
          cases hphase
  | polled => cases hepoll
  | dispatched _ hphase => exact (hs.ne hphase rfl nofun).elim
  | handled _ hphase => exact (hs.ne hphase rfl nofun).elim
  | created hactive =>
      have hsome := hactive.resolve_right
        (fun hidle => hs.ne hidle rfl nofun)
      obtain ⟨last, hlast⟩ := h.readying hs hsome
      have hlive : (s.coroutine last).isSome := by
        rcases h.last last hlast with hmem | heq
        · exact hinv.ready last hmem
        · exact hinv.curr last heq
      have hne : last ∉ [s.created] := by
        rw [List.mem_singleton]
        rintro rfl
        rw [hinv.dead] at hlive
        cases hlive
      refine ⟨?_, hs⟩
      rw [if_neg (Option.isSome_iff_ne_none.mp hsome)]
      have hdue : (enlisted s).due = s.due := due_append hne hlast rfl rfl
      exact hdue
  | refused =>
      refine ⟨?_, hs⟩
      have hnone : (if s.currThread = none then s.currThread else none) =
          none := by
        split_ifs with hcurr
        · exact hcurr
        · rfl
      rw [hnone]
      rfl
  | yielded hcurr =>
      exact hleaves hcurr rfl rfl (fun y => List.mem_singleton.mp)
  | slept hcurr => exact hstays hcurr rfl rfl
  | counted hcurr => exact hstays hcurr rfl rfl
  | reniced hcurr =>
      exact hleaves hcurr rfl rfl (fun y => List.mem_singleton.mp)
  | detached hcurr => exact hstays hcurr rfl rfl
  | parked hcurr =>
      exact hleaves hcurr rfl (List.append_nil _).symm nofun
  | rested hcurr =>
      exact hleaves hcurr rfl (List.append_nil _).symm nofun
  | retired hcurr =>
      exact hleaves hcurr rfl (List.append_nil _).symm nofun
  | opened hsome =>
      obtain ⟨x, hx⟩ := Option.isSome_iff_exists.mp hsome
      exact hstays hx rfl rfl
  | closed hsome =>
      obtain ⟨x, hx⟩ := Option.isSome_iff_exists.mp hsome
      exact hstays hx rfl rfl

/-- A pass over the ready queue resumes the coroutines that are in it at the
start, in their order; those that enter it meanwhile have to wait. -/
theorem scheduleRun_readies (opened : Finset ℤ) :
    ∀ s actions t, Runs opened s → s.currThread = none →
      s.phase = .readying s.ready.getLast? →
      Heeds scheduleStep (fun s a => s.Obeys a ∧ a.isEpoll = false) actions s →
      execute scheduleStep actions s = some t →
      resumed actions s <+: s.ready ∧
        (t.phase = .polling → resumed actions s = s.ready) := by
  intro s actions t hs hcurr hphase hheeds hrun
  have hdrains := observed_append (fun s => Runs opened s ∧ s.Readies)
    (fun s a => (resumes s a).toList) due
    (fun s a s' hs hguard hstep =>
      ⟨hs.1.next a hguard.1 hstep,
        ((hs.1.inv.step hguard.1 hstep).due hs.1.inv hs.1.loops hs.2
          hguard.2).2⟩)
    (by
      intro s a s' hs hguard hstep
      rw [resumes_of_step hstep]
      exact ((hs.1.inv.step hguard.1 hstep).due hs.1.inv hs.1.loops hs.2
        hguard.2).1)
    ⟨hs, .inl (by rw [hphase]; rfl)⟩ hheeds hrun
  have hdue : s.due = s.ready := by
    rw [due_of_readying hphase]
    cases hlast : s.ready.getLast? with
    | none =>
        rw [List.getLast?_eq_none_iff] at hlast
        rw [hlast]
        rfl
    | some last =>
        rw [Option.elim_some, if_pos (List.mem_of_getLast? hlast)]
        exact upTo_getLast hs.inv.readyNodup hlast
  rw [hdue] at hdrains
  refine ⟨⟨_, hdrains⟩, ?_⟩
  intro hpolling
  rw [due_of_polling hpolling, List.append_nil] at hdrains
  exact hdrains

/-- The first coroutine enters the queue again, and is not resumed twice. -/
theorem scheduleRun_readies_pair : ∃ s, Runs ∅ s ∧ s.ready = [0, 1] ∧
    resumed [.ready, .create true, .sleep 0, .ready, .exit] s = s.ready := by
  let front : List Action :=
    [.create true, .create true, .run, .turn, .expire]
  let actions : List Action := [.ready, .create true, .sleep 0, .ready, .exit]
  obtain ⟨s, hrun⟩ := Option.isSome_iff_exists.mp
    (by decide +kernel : (execute scheduleStep front (create ∅)).isSome)
  have hs : Runs ∅ s := Reach.start.execute front (by decide +kernel) hrun
  have hpass : ∀ u ∈ execute scheduleStep front (create ∅),
      u.currThread = none ∧ u.phase = .readying u.ready.getLast? ∧
      u.ready = [0, 1] ∧
      Heeds scheduleStep (fun s a => s.Obeys a ∧ a.isEpoll = false)
        actions u ∧
      (execute scheduleStep actions u).map phase = some .polling := by
    decide +kernel
  obtain ⟨hcurr, hphase, hready, hheeds, hrest⟩ := hpass s hrun
  obtain ⟨t, ht, hpolling⟩ := Option.map_eq_some_iff.mp hrest
  exact ⟨s, hs, hready,
    (scheduleRun_readies ∅ s actions t hs hcurr hphase hheeds ht).2 hpolling⟩

/-! ## Who is woken up -/

/-- The coroutine waits for a descriptor. -/
def Waits (s : Schedule) (fd : ℤ) (co : Co) : Prop :=
  co ∈ s.waiting ∧ waitTree.keyOf s co = fd

def waiter (s : Schedule) (fd : ℤ) : Option Co :=
  OrderedIndex.find (waitTree.keyOf s) fd s.waiting

/-- The coroutines that wait for the events that are not handled yet. -/
def awaiting (s : Schedule) : List Co :=
  s.eventlist.filterMap (fun ev => s.waiter ev.fd)

def Action.isTurn : Action → Bool
  | .turn => true
  | _ => false

theorem Inv.waiter_eq_some {fd : ℤ} (h : Inv s) :
    s.waiter fd = some co ↔ s.Waits fd co :=
  OrderedIndex.find_eq_some h.watches.sorted

theorem Inv.waiter_congr {fd : ℤ} (h : Inv s) (h' : Inv s')
    (hsame : ∀ x, s'.Waits fd x ↔ s.Waits fd x) :
    s'.waiter fd = s.waiter fd := by
  ext x
  rw [h'.waiter_eq_some, h.waiter_eq_some]
  exact hsame x

/-- The loop over the events runs, or it has ended. -/
def Dispatches (s : Schedule) : Prop :=
  s.phase = .dispatching ∨ s.phase = .turning

theorem Dispatches.ne {phase : Phase} (h : s.Dispatches)
    (hphase : s.phase = phase) (hdispatching : phase ≠ .dispatching)
    (hturning : phase ≠ .turning) : False :=
  h.elim (fun hs => hdispatching (hphase.symm.trans hs))
    (fun hs => hturning (hphase.symm.trans hs))

theorem Dispatches.behind (h : s.Dispatches)
    (hphase : s'.phase = s.phase.behind co) : s'.Dispatches := by
  rcases h with hs | hs
  · rw [hs] at hphase
    exact .inl hphase
  · rw [hs] at hphase
    exact .inr hphase

theorem awaiting_congr (hevents : s'.eventlist = s.eventlist)
    (h : ∀ ev ∈ s.eventlist, s'.waiter ev.fd = s.waiter ev.fd) :
    s'.awaiting = s.awaiting := by
  rw [awaiting, hevents]
  exact List.filterMap_congr h

/-- Nobody begins or ceases to wait. -/
theorem Inv.awaiting_same (h : Inv s) (h' : Inv s')
    (hevents : s'.eventlist = s.eventlist) (hwaiting : s'.waiting = s.waiting)
    (hrecords : ∀ x ∈ s.waiting, s'.coroutine x = s.coroutine x) :
    s'.awaiting = s.awaiting := by
  apply awaiting_congr hevents
  intro ev _
  apply h.waiter_congr h'
  intro x
  rw [Waits, Waits, hwaiting]
  apply and_congr_right
  intro hx
  rw [Tree.keyOf, Tree.keyOf, hrecords x hx]

/-- A coroutine begins to wait for what no event tells of. -/
theorem Inv.awaiting_parked {c : Coroutine} {status : Status} {fd : ℤ}
    {events : BitVec 16} {l : List Co} (h : Inv s)
    (h' : Inv (parked co c status fd events l s)) (hfd : fd ∉ s.poller)
    (hcurr : s.currThread = some co) (hperm : l.Perm (co :: s.waiting)) :
    (parked co c status fd events l s).awaiting = s.awaiting := by
  obtain ⟨-, -, -, hwaiting, -⟩ := h.running hcurr
  have hkey : waitTree.keyOf (Schedule.parked co c status fd events l s) co =
      fd := by
    simp [Tree.keyOf, Schedule.parked, waitTree]
  refine awaiting_congr ?_ ?_
  · rfl
  intro ev hev
  have hne : fd ≠ ev.fd := by
    rintro rfl
    exact hfd (h.awaited.watched ev hev)
  apply h.waiter_congr h'
  intro x
  change x ∈ l ∧ _ ↔ _
  rw [hperm.mem_iff, List.mem_cons, Waits]
  by_cases hx : x = co
  · subst hx
    simp [hkey, hne, hwaiting]
  · have hsame : waitTree.keyOf (Schedule.parked co c status fd events l s) x =
        waitTree.keyOf s x := by
      simp [Tree.keyOf, Schedule.parked, hx]
    simp [hx, hsame]

/-- The coroutine that goes on was waiting for the next event. -/
theorem Inv.awaiting_woken {ev : PollEvent} {rest : List PollEvent}
    {c : Coroutine} (h : Inv s) (h' : Inv (woken co c (withEventlist rest s)))
    (hevents : s.eventlist = ev :: rest) (hwaiting : co ∈ s.waiting)
    (hc : s.coroutine co = some c) (hfd : c.fd = ev.fd) :
    co :: (woken co c (withEventlist rest s)).awaiting = s.awaiting := by
  have hkey : waitTree.keyOf s co = ev.fd :=
    (keyOf_of_some waitTree hc).trans hfd
  have hnodup := h.awaited.nodup
  rw [hevents, List.map_cons, List.nodup_cons] at hnodup
  have hmem : co ∉ s.waiting.erase co :=
    (OrderedIndex.nodup_of_sortedBy h.watches.sorted).not_mem_erase
  have hothers : ∀ ev' ∈ rest,
      (woken co c (withEventlist rest s)).waiter ev'.fd = s.waiter ev'.fd := by
    intro ev' hev'
    have hne : ev.fd ≠ ev'.fd := by
      intro heq
      apply hnodup.1
      rw [heq]
      exact List.mem_map_of_mem hev'
    apply h.waiter_congr h'
    intro x
    change x ∈ s.waiting.erase co ∧ _ ↔ _
    by_cases hx : x = co
    · subst hx
      simp [Waits, hmem, hkey, hne]
    · have hsame : waitTree.keyOf (woken co c (withEventlist rest s)) x =
          waitTree.keyOf s x := by
        simp [Tree.keyOf, woken, hx]
      rw [Waits, List.mem_erase_of_ne hx, hsame]
  have hfirst : s.waiter ev.fd = some co :=
    h.waiter_eq_some.mpr ⟨hwaiting, hkey⟩
  rw [awaiting, awaiting, hevents, List.filterMap_cons, hfirst]
  exact congrArg (co :: ·) (List.filterMap_congr hothers)

/-- A step of the loop over the events resumes the coroutine that waits for
the next one, or none. -/
theorem Next.awaiting (hinv : Inv s) (hs : s.Dispatches)
    (hnext : Next s a s') (hinv' : Inv s') (hturn : a.isTurn = false) :
    (if s.currThread = none then s'.currThread else none).toList ++
        s'.awaiting = s.awaiting ∧ s'.Dispatches := by
  -- the same coroutine goes on, or none does
  have hstays : s'.phase = s.phase → s'.currThread = s.currThread →
      s'.eventlist = s.eventlist → s'.waiting = s.waiting →
        (∀ x ∈ s.waiting, s'.coroutine x = s.coroutine x) →
          (if s.currThread = none then s'.currThread else none).toList ++
            s'.awaiting = s.awaiting ∧ s'.Dispatches := by
    intro hphase hcurr hevents hwaiting hrecords
    refine ⟨?_, by rw [Dispatches, hphase]; exact hs⟩
    have hnone : (if s.currThread = none then s'.currThread else none) =
        none := by
      rw [hcurr]
      split_ifs with hnone
      · exact hnone
      · rfl
    rw [hnone, hinv.awaiting_same hinv' hevents hwaiting hrecords]
    rfl
  -- the running coroutine yields
  have hleaves : ∀ {x}, s.currThread = some x → s'.phase = s.phase.behind x →
      s'.awaiting = s.awaiting →
        (if s.currThread = none then s'.currThread else none).toList ++
          s'.awaiting = s.awaiting ∧ s'.Dispatches := by
    intro x hx hphase hsame
    refine ⟨?_, hs.behind hphase⟩
    rw [if_neg (by rw [hx]; exact nofun), hsame]
    rfl
  have hothers : ∀ {x}, s.currThread = some x → ∀ y ∈ s.waiting, y ≠ x := by
    rintro x hx y hy rfl
    obtain ⟨-, -, -, hwaiting, -⟩ := hinv.running hx
    exact hwaiting hy
  cases hnext with
  | tick => exact hstays rfl rfl rfl rfl (fun _ _ => rfl)
  | run _ hphase => exact (hs.ne hphase nofun nofun).elim
  | turn => cases hturn
  | expired _ hphase => exact (hs.ne hphase nofun nofun).elim
  | roused _ hphase => exact (hs.ne hphase nofun nofun).elim
  | unexpired _ hphase => exact (hs.ne hphase nofun nofun).elim
  | emptied _ hphase =>
      rcases hs with hs | hs <;>
        rw [hs] at hphase <;> cases hphase
  | picked _ hphase =>
      rcases hs with hs | hs <;>
        rw [hs] at hphase <;> cases hphase
  | polled _ hphase => exact (hs.ne hphase nofun nofun).elim
  | dispatched hcurr _ hevents =>
      refine ⟨?_, .inr rfl⟩
      simp [Schedule.awaiting, hevents, hcurr]
  | handled hcurr hphase hevents hwaiting hc hfd =>
      refine ⟨?_, .inl hphase⟩
      rw [if_pos hcurr]
      exact hinv.awaiting_woken hinv' hevents hwaiting hc hfd
  | created =>
      apply hstays rfl rfl rfl rfl
      intro x hx
      have hne : x ≠ s.created := by
        rintro rfl
        exact hinv.waiting.ne_dead hinv.dead hx
      simp [enlisted, hne]
  | refused => exact hstays rfl rfl rfl rfl (fun _ _ => rfl)
  | yielded hcurr hc =>
      apply hleaves hcurr rfl
      apply hinv.awaiting_same hinv' rfl rfl
      intro x hx
      simp [requeued, hothers hcurr x hx]
  | slept hcurr hc =>
      apply hstays rfl rfl rfl rfl
      intro x hx
      simp [asleep, hothers hcurr x hx]
  | counted hcurr hc =>
      apply hstays rfl rfl rfl rfl
      intro x hx
      simp [hothers hcurr x hx]
  | reniced hcurr hc =>
      apply hleaves hcurr rfl
      apply hinv.awaiting_same hinv' rfl rfl
      intro x hx
      simp [requeued, hothers hcurr x hx]
  | detached hcurr hc =>
      apply hstays rfl rfl rfl rfl
      intro x hx
      simp [hothers hcurr x hx]
  | parked hcurr hc hfd hstatus hperm =>
      apply hleaves hcurr rfl
      exact hinv.awaiting_parked hinv' hfd hcurr hperm
  | rested hcurr =>
      apply hleaves hcurr rfl
      apply hinv.awaiting_same hinv' rfl rfl
      intro x hx
      simp [Schedule.rested, hothers hcurr x hx]
  | retired hcurr =>
      apply hleaves hcurr rfl
      apply hinv.awaiting_same hinv' rfl rfl
      intro x hx
      simp [Schedule.retired, hothers hcurr x hx]
  | opened => exact hstays rfl rfl rfl rfl (fun _ _ => rfl)
  | closed => exact hstays rfl rfl rfl rfl (fun _ _ => rfl)

theorem forall₂_filterMap {α β : Type} {R : α → β → Prop} {f : α → Option β}
    {l : List α} (h : ∀ x ∈ l, ∃ y, f x = some y ∧ R x y) :
    List.Forall₂ R l (l.filterMap f) := by
  induction l with
  | nil => exact .nil
  | cons x l ih =>
      obtain ⟨y, hy, hR⟩ := h x List.mem_cons_self
      rw [List.filterMap_cons, hy]
      exact .cons hR (ih (fun z hz => h z (List.mem_cons_of_mem x hz)))

/-- What `epoll_wait` reports resumes, from the end of the batch, the
coroutines that wait for it. -/
theorem scheduleRun_dispatches (opened : Finset ℤ) :
    ∀ s batch actions t, Runs opened s → s.ready = [] → s.minTimeout ≠ 0 →
      Heeds scheduleStep (fun s a => s.Obeys a ∧ a.isTurn = false)
        (.epoll batch :: actions) s →
      execute scheduleStep (.epoll batch :: actions) s = some t →
      ∃ rest, List.Forall₂ (fun ev co => s.Waits ev.fd co) batch.reverse
          (resumed (.epoll batch :: actions) s ++ rest) ∧
        (t.phase = .turning → rest = []) := by
  intro s batch actions t hs hready htimeout hheeds hrun
  obtain ⟨s₁, hstep, hrest⟩ := Option.bind_eq_some_iff.mp hrun
  obtain ⟨⟨hobeys, -⟩, hheeds'⟩ := hheeds
  have hnext := hs.inv.step hobeys hstep
  have hs₁ : Runs opened s₁ := hs.next _ hobeys hstep
  have hinv₁ := hs₁.inv
  cases hnext with
  | polled hcurr hphase hreported =>
      rw [if_pos ⟨htimeout, hready⟩] at hstep hinv₁ hs₁ hrest
      have hdrains := observed_append (fun s => Runs opened s ∧ s.Dispatches)
        (fun s a => (resumes s a).toList) awaiting
        (fun s a s' hs hguard hstep =>
          have hs' := hs.1.next a hguard.1 hstep
          ⟨hs', ((hs.1.inv.step hguard.1 hstep).awaiting hs.1.inv hs.2
            (Runs.inv hs') hguard.2).2⟩)
        (by
          intro s a s' hs hguard hstep
          rw [resumes_of_step hstep]
          have hs' := hs.1.next a hguard.1 hstep
          exact ((hs.1.inv.step hguard.1 hstep).awaiting hs.1.inv hs.2
            (Runs.inv hs') hguard.2).1)
        ⟨hs₁, .inl rfl⟩ (hheeds' _ hstep) hrest
      have hwaits : List.Forall₂ (fun ev co => s.Waits ev.fd co) batch.reverse
          (awaiting (withPhase .dispatching
            (withEventlist batch.reverse s))) := by
        apply forall₂_filterMap
        intro ev hev
        obtain ⟨co, hwaiting, hkey⟩ := (hs.inv.watches.poller ev.fd).mp
          (hreported.2 ev (List.mem_reverse.mp hev))
        exact ⟨co, hinv₁.waiter_eq_some.mpr ⟨hwaiting, hkey⟩, hwaiting, hkey⟩
      refine ⟨t.awaiting, ?_, ?_⟩
      · have hfirst : resumes s (.epoll batch) = none := by
          rw [resumes_of_step hstep, if_pos hcurr]
          exact hcurr
        simp only [resumed, observed, hfirst, hstep, Option.toList_none,
          List.nil_append, Option.elim_some, hdrains]
        exact hwaits
      · intro hturning
        have ht : Runs opened t := hs₁.execute actions
          (heeds_and.mp (hheeds' _ hstep)).1 hrest
        have hevents := ht.inv.eventlist_nil (by rw [hturning]; decide)
        rw [awaiting, hevents]
        rfl

theorem scheduleRun_dispatches_pair : ∃ s, Runs ∅ s ∧
    List.Forall₂ (fun (ev : PollEvent) co => s.Waits ev.fd co)
      [⟨4, true⟩, ⟨3, false⟩]
      (resumed [.epoll [⟨3, false⟩, ⟨4, true⟩], .dispatch, .closeFd 4, .exit,
        .dispatch, .poll 3 pollIn, .dispatch] s) := by
  let front : List Action := [.create true, .create true, .run, .turn, .expire,
    .ready, .openFd 3, .poll 3 pollIn, .ready, .openFd 4, .poll 4 pollIn]
  let batch : List PollEvent := [⟨3, false⟩, ⟨4, true⟩]
  let actions : List Action := [.dispatch, .closeFd 4, .exit, .dispatch,
    .poll 3 pollIn, .dispatch]
  obtain ⟨s, hrun⟩ := Option.isSome_iff_exists.mp
    (by decide +kernel : (execute scheduleStep front (create ∅)).isSome)
  have hs : Runs ∅ s := Reach.start.execute front (by decide +kernel) hrun
  have hpass : ∀ u ∈ execute scheduleStep front (create ∅),
      u.ready = [] ∧ u.minTimeout ≠ 0 ∧
      Heeds scheduleStep (fun s a => s.Obeys a ∧ a.isTurn = false)
        (.epoll batch :: actions) u ∧
      (execute scheduleStep (.epoll batch :: actions) u).map phase =
        some .turning := by
    decide +kernel
  obtain ⟨hready, htimeout, hheeds, hrest⟩ := hpass s hrun
  obtain ⟨t, ht, hturning⟩ := Option.map_eq_some_iff.mp hrest
  obtain ⟨rest, hwaits, hnil⟩ := scheduleRun_dispatches ∅ s batch actions t hs
    hready htimeout hheeds ht
  rw [hnil hturning, List.append_nil] at hwaits
  exact ⟨s, hs, hwaits⟩

/-! ## How long a sleep lasts -/

def Action.isSleep : Action → Bool
  | .sleep _ => true
  | _ => false

/-- The coroutine sleeps until a moment, or this moment is past. -/
structure Until (co : Co) (usecs : ℕ) (s : Schedule) : Prop where
  asleep : co ∈ s.sleeping → sleepTree.keyOf s co = usecs
  awake : co ∉ s.sleeping → usecs ≤ s.elapsed

/-- The tree and the clock stay as they are, and so does the moment in the
record. -/
theorem Until.same {usecs : ℕ} (h : Until co usecs s)
    (hsleeping : s'.sleeping = s.sleeping) (helapsed : s'.elapsed = s.elapsed)
    (hkey : co ∈ s.sleeping → sleepTree.keyOf s' co = sleepTree.keyOf s co) :
    Until co usecs s' := by
  constructor
  · intro hmem
    rw [hsleeping] at hmem
    rw [hkey hmem]
    exact h.asleep hmem
  · intro hmem
    rw [hsleeping] at hmem
    rw [helapsed]
    exact h.awake hmem

theorem keyOf_withCo_of_same {x : Co} {c c' : Coroutine}
    (hc : s.coroutine x = some c) (hsame : c'.sleepUsecs = c.sleepUsecs) :
    sleepTree.keyOf (withCo x (some c') s) co = sleepTree.keyOf s co := by
  by_cases hne : co = x
  · subst hne
    rw [keyOf_of_some sleepTree hc,
      keyOf_of_some sleepTree (Function.update_self _ _ _)]
    exact hsame
  · exact keyOf_withCo_of_ne sleepTree hne _

/-- The first of those that sleep wakes up. -/
theorem Until.expired {usecs : ℕ} {x : Co} {c c' : Coroutine}
    (h : Until co usecs s) (hinv : Inv s) (hhead : s.sleeping.head? = some x)
    (hc : s.coroutine x = some c) (hpast : c.sleepUsecs ≤ s.elapsed)
    (hkept : c'.sleepUsecs = c.sleepUsecs)
    (hcoroutine : s'.coroutine = Function.update s.coroutine x (some c'))
    (hsleeping : s'.sleeping = s.sleeping.erase x)
    (helapsed : s'.elapsed = s.elapsed) : Until co usecs s' := by
  have hsorted := OrderedIndex.nodup_of_sortedBy hinv.sleepers.sorted
  constructor
  · intro hmem
    rw [hsleeping] at hmem
    have hsame : sleepTree.keyOf s' co = sleepTree.keyOf s co := by
      have hrecord : sleepTree.keyOf s' co =
          sleepTree.keyOf (withCo x (some c') s) co := by
        rw [Tree.keyOf, Tree.keyOf, hcoroutine]
        rfl
      exact hrecord.trans (keyOf_withCo_of_same hc hkept)
    exact hsame.trans (h.asleep (List.mem_of_mem_erase hmem))
  · intro hmem
    rw [hsleeping] at hmem
    rw [helapsed]
    by_cases heq : co = x
    · subst heq
      rw [← h.asleep (List.mem_of_mem_head? hhead),
        keyOf_of_some sleepTree hc]
      exact hpast
    · exact h.awake (fun hmem' => hmem ((List.mem_erase_of_ne heq).mpr hmem'))

theorem Until.next {usecs : ℕ} (h : Until co usecs s) (hinv : Inv s)
    (hnext : Next s a s') (hobeys : s.Obeys a)
    (hsleep : s.currThread = some co → a.isSleep = false) :
    Until co usecs s' := by
  cases hnext with
  | tick => exact ⟨h.asleep, fun hmem => (h.awake hmem).trans hobeys⟩
  | run => exact h.same rfl rfl (fun _ => rfl)
  | turn => exact h.same rfl rfl (fun _ => rfl)
  | @expired x c hcurr hphase hhead _ hc hpast =>
      have hkept : ({ c with status := 0 } : Coroutine).sleepUsecs =
          c.sleepUsecs := rfl
      apply h.expired hinv hhead hc hpast hkept <;> rfl
  | roused hcurr hphase hhead _ hc hpast _ hkept =>
      apply h.expired hinv hhead hc hpast hkept <;> rfl
  | unexpired => exact h.same rfl rfl (fun _ => rfl)
  | emptied => exact h.same rfl rfl (fun _ => rfl)
  | picked hcurr hphase hready hc hstatus hkept =>
      exact h.same rfl rfl (fun _ => keyOf_withCo_of_same hc hkept)
  | polled => exact h.same rfl rfl (fun _ => rfl)
  | dispatched => exact h.same rfl rfl (fun _ => rfl)
  | handled hcurr hphase hevents hwaiting hc =>
      exact h.same rfl rfl (fun _ => keyOf_withCo_of_same hc rfl)
  | created =>
      refine h.same rfl rfl (fun hmem => ?_)
      apply keyOf_withCo_of_ne sleepTree
      rintro rfl
      exact hinv.sleeping.ne_dead hinv.dead hmem
  | refused => exact h
  | yielded hcurr hc =>
      exact h.same rfl rfl (fun _ => keyOf_withCo_of_same hc rfl)
  | @slept x c msecs usecs' l hcurr hc hmsecs hlong hshort hfree hperm =>
      have hne : co ≠ x := by
        rintro rfl
        cases hsleep hcurr
      have hmem' : co ∈ l ↔ co ∈ s.sleeping := by
        rw [hperm.mem_iff, List.mem_cons, List.mem_erase_of_ne hne]
        simp [hne]
      constructor
      · intro hmem
        exact (keyOf_withCo_of_ne sleepTree hne _).trans
          (h.asleep (hmem'.mp hmem))
      · intro hmem
        exact h.awake (fun hmem'' => hmem (hmem'.mpr hmem''))
  | counted hcurr hc =>
      exact h.same rfl rfl (fun _ => keyOf_withCo_of_same hc rfl)
  | reniced hcurr hc =>
      exact h.same rfl rfl (fun _ => keyOf_withCo_of_same hc rfl)
  | detached hcurr hc =>
      exact h.same rfl rfl (fun _ => keyOf_withCo_of_same hc rfl)
  | parked hcurr hc =>
      exact h.same rfl rfl (fun _ => keyOf_withCo_of_same hc rfl)
  | rested hcurr hc =>
      exact h.same rfl rfl (fun _ => keyOf_withCo_of_same hc rfl)
  | @retired x hcurr hnot =>
      refine h.same rfl rfl (fun hmem => ?_)
      apply keyOf_withCo_of_ne sleepTree
      rintro rfl
      exact hnot hmem
  | opened => exact h.same rfl rfl (fun _ => rfl)
  | closed => exact h.same rfl rfl (fun _ => rfl)

/-- A sleep lasts as long as was asked for.  It is over when the loop over the
sleeping coroutines ends at a moment that is later by as many microseconds as
there were others asleep. -/
theorem scheduleRun_sleeps (opened : Finset ℤ) :
    ∀ s co msecs s₁ actions t, Runs opened s → s.currThread = some co →
      msecs ≠ 0 → s.Obeys (.sleep msecs) →
      scheduleStep s (.sleep msecs) = some s₁ →
      Heeds scheduleStep (fun s a => s.Obeys a ∧
        (s.currThread = some co → a.isSleep = false)) actions s₁ →
      execute scheduleStep actions s₁ = some t →
      (co ∉ t.sleeping → s.elapsed + msecs * 1000 ≤ t.elapsed) ∧
        (s.elapsed + msecs * 1000 + s.sleeping.length ≤ t.elapsed →
          ∀ t', scheduleStep t .expire = some t' →
            t'.phase.isReadying = true → co ∉ t'.sleeping) := by
  intro s co msecs s₁ actions t hs hcurr hmsecs hobeys hstep hheeds hrun
  have hs₁ : Runs opened s₁ := hs.next _ hobeys hstep
  have ht : Runs opened t := hs₁.execute actions (heeds_and.mp hheeds).1 hrun
  obtain ⟨usecs, hlong, hshort, hstart⟩ : ∃ usecs,
      s.elapsed + msecs * 1000 ≤ usecs ∧
      usecs ≤ s.elapsed + msecs * 1000 + s.sleeping.length ∧
      Until co usecs s₁ := by
    cases hs.inv.step hobeys hstep with
    | yielded => exact absurd rfl hmsecs
    | @slept x c _ usecs l hx hc _ hlong hshort _ hperm =>
        cases hcurr.symm.trans hx
        refine ⟨usecs, hlong, hshort, ?_, ?_⟩
        · intro _
          simp [Tree.keyOf, asleep, sleepTree]
        · intro hmem
          exact absurd (hperm.mem_iff.mpr List.mem_cons_self) hmem
  have huntil : Runs opened t ∧ Until co usecs t := by
    apply invariant_of_heeds ?_ ⟨hs₁, hstart⟩ hheeds hrun
    rintro u a u' ⟨hu, huntil⟩ ⟨hobeys', hsleep⟩ hstep'
    exact ⟨hu.next a hobeys' hstep',
      huntil.next hu.inv (hu.inv.step hobeys' hstep') hobeys' hsleep⟩
  refine ⟨fun hmem => hlong.trans (huntil.2.awake hmem), ?_⟩
  intro hlate t' hexpire hreadying hmem
  cases ht.inv.step (a := .expire) trivial hexpire with
  | expired _ hphase =>
      change t.phase.isReadying = true at hreadying
      rw [hphase] at hreadying
      cases hreadying
  | roused _ hphase =>
      change t.phase.isReadying = true at hreadying
      rw [hphase] at hreadying
      cases hreadying
  | unexpired _ _ hlater =>
      change co ∈ t.sleeping at hmem
      have hkey := huntil.2.asleep hmem
      have hsorted := ht.inv.sleepers.sorted
      cases hsleepers : t.sleeping with
      | nil =>
          rw [hsleepers] at hmem
          cases hmem
      | cons first others =>
          rw [hsleepers] at hmem hsorted hlater
          have hleast := OrderedIndex.key_head_le hsorted co hmem
          have hfirst := hlater first rfl
          omega

/-- The coroutine sleeps and yields, and returns behind its sleep. -/
theorem scheduleRun_sleeps_single : ∃ s s₁ t t', Runs ∅ s ∧
    scheduleStep s (.sleep 5) = some s₁ ∧
    execute scheduleStep [.yield, .epoll [], .dispatch, .tick 5000, .turn,
      .expire, .exit] s₁ = some t ∧
    s.elapsed + 5000 ≤ t.elapsed ∧ scheduleStep t .expire = some t' ∧
    0 ∉ t'.sleeping := by
  let front : List Action := [.create true, .run, .turn, .expire, .ready]
  let actions : List Action := [.yield, .epoll [], .dispatch, .tick 5000,
    .turn, .expire, .exit]
  obtain ⟨s, hrun⟩ := Option.isSome_iff_exists.mp
    (by decide +kernel : (execute scheduleStep front (create ∅)).isSome)
  have hs : Runs ∅ s := Reach.start.execute front (by decide +kernel) hrun
  have hsleep : ∀ u ∈ execute scheduleStep front (create ∅),
      u.currThread = some 0 ∧ u.Obeys (.sleep 5) ∧
      (scheduleStep u (.sleep 5)).isSome ∧
      ∀ u₁ ∈ scheduleStep u (.sleep 5),
        Heeds scheduleStep (fun s a => s.Obeys a ∧
          (s.currThread = some 0 → a.isSleep = false)) actions u₁ ∧
        (execute scheduleStep actions u₁).isSome ∧
        ∀ v ∈ execute scheduleStep actions u₁, 0 ∉ v.sleeping ∧
          u.elapsed + 5 * 1000 + u.sleeping.length ≤ v.elapsed ∧
          (scheduleStep v .expire).map (fun v' => v'.phase.isReadying) =
            some true := by
    decide +kernel
  obtain ⟨hcurr, hobeys, hsome, hrest⟩ := hsleep s hrun
  obtain ⟨s₁, hs₁⟩ := Option.isSome_iff_exists.mp hsome
  obtain ⟨hheeds, hsome', hlast⟩ := hrest s₁ hs₁
  obtain ⟨t, ht⟩ := Option.isSome_iff_exists.mp hsome'
  obtain ⟨hawake, hlate, hexpire⟩ := hlast t ht
  obtain ⟨t', ht', hreadying⟩ := Option.map_eq_some_iff.mp hexpire
  obtain ⟨hlong, hshort⟩ := scheduleRun_sleeps ∅ s 0 5 s₁ actions t hs hcurr
    (by decide) hobeys hs₁ hheeds ht
  exact ⟨s, s₁, t, t', hs, hs₁, ht, hlong hawake, ht',
    hshort hlate t' ht' hreadying⟩

end Runs

end Schedule

end CAdvanced
