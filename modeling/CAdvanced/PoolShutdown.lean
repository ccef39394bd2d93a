import CAdvanced.ThreadPool

/-!
# The thread pool after `quit` is set

A worker tests `quit` between two tasks, but it may wait for a task or hold one
when `quit` is set: it then starts one more task at most.  A client may be
anything that calls the pool, a running task included.
-/

namespace CAdvanced

open Transition
open Pool

variable {n : ℕ}

/-! ## The worker and the client of an action -/

/-- The worker that takes the step. -/
def Action.byWorker : Action n → Option (Fin n)
  | .testQuit i => some i
  | .popTask i => some i
  | .lockMutex i => some i
  | .loadBlock i => some i
  | .condWait i => some i
  | .spurious i => some i
  | .relock i => some i
  | .unlockMutex i => some i
  | .startTask i => some i
  | .finishTask i => some i
  | _ => none

def Action.starts (i : Fin n) : Action n → Bool
  | .startTask j => j = i
  | _ => false

/-- The client whose call of `thread_pool_post` is past its test of `quit`. -/
def Action.pastTest : Action n → Option ℕ
  | .allocate c _ => some c
  | .addTask c => some c
  | .signal c _ => some c
  | _ => none

/-- What `thread_pool_post` returns, if it returns in this step. -/
def postResult (s : Pool n) : Action n → Option ℤ
  | .testPost _ => if s.quit = 1 then some (-1) else none
  | .allocate _ granted => if granted then none else some (-1)
  | .signal _ _ => some 0
  | _ => none

/-- The client does not get past the test, and there its call returns -1 and
leaves the rest of the pool as it is. -/
def PostRefused (c : ℕ) (s : Pool n) (a : Action n) : Prop :=
  a.pastTest ≠ some c ∧
    (a = .testPost c →
      postResult s a = some (-1) ∧ poolStep s a = some (withClient c .idle s))

/-- The worker has returned, and takes no step. -/
def WorkerGone (i : Fin n) (s : Pool n) (a : Action n) : Prop :=
  s.worker i = .returned ∧ a.byWorker ≠ some i

/-- What the actions behind a state amount to. -/
structure WorkBounded (s : Pool n) (rest : List (Action n)) : Prop where
  starts : ∀ i, rest.countP (Action.starts i) ≤ 1
  posts : ∀ before after c func arg,
    rest = before ++ .post c func arg :: after →
    ∀ u ∈ execute poolStep (before ++ [.post c func arg]) s,
      Heeds poolStep (PostRefused c) after u
  gone : ∀ before after i, rest = before ++ after →
    ∀ u ∈ execute poolStep before s, u.worker i = .returned →
      Heeds poolStep (WorkerGone i) after u

/-! ## `quit` stays set -/

section Quit

variable {s s' : Pool n} {a : Action n}

def HasQuit (s : Pool n) : Prop := s.quit = 1

theorem hasQuit_moves (h : HasQuit s) (hmove : Moves s a s') :
    HasQuit s' := by
  cases hmove with
  | storeQuit c hpc => rfl
  | _ => exact h

theorem hasQuit_step (h : HasQuit s) (hstep : poolStep s a = some s') :
    HasQuit s' :=
  hasQuit_moves h (moves_of_poolStep hstep)

theorem hasQuit_execute {actions : List (Action n)} (h : HasQuit s)
    (hrun : execute poolStep actions s = some s') : HasQuit s' := by
  have hreach := reachable_of_execute hrun
  apply hreach.invariant h
  intro u a u' hu _ hstep
  exact hasQuit_step hu hstep

end Quit

/-! ## Tasks that a worker may still start -/

/-- A worker that waits for a task, or holds one, may start it. -/
def WorkerPc.startsLeft : WorkerPc → ℕ
  | .testQuit => 0
  | .running _ => 0
  | .returned => 0
  | _ => 1

def startsLeft (i : Fin n) (s : Pool n) : ℕ := (s.worker i).startsLeft

section Starts

variable {s s' : Pool n} {a : Action n} {i : Fin n}

theorem WorkerPc.startsLeft_le (pc : WorkerPc) : pc.startsLeft ≤ 1 := by
  cases pc <;> simp [WorkerPc.startsLeft]

theorem startsLeft_withWorker {j : Fin n} {pc : WorkerPc}
    (hpc : pc.startsLeft ≤ (s.worker j).startsLeft) :
    startsLeft i (withWorker j pc s) ≤ startsLeft i s := by
  unfold startsLeft
  by_cases hij : i = j
  · subst hij
    simpa using hpc
  · simp [hij]

theorem startsLeft_wakeAll : startsLeft i (wakeAll s) = startsLeft i s := by
  unfold startsLeft
  rw [wakeAll_worker]
  cases s.worker i <;> rfl

/-- Only the start of a task is paid for, and nothing is earned. -/
theorem startsLeft_moves (h : HasQuit s) (hmove : Moves s a s') :
    startsLeft i s' + (if a.starts i then 1 else 0) ≤ startsLeft i s := by
  cases hmove with
  | testQuit_go j hpc hquit =>
      rw [HasQuit, hquit] at h
      cases h
  | testQuit_leave j hpc hquit =>
      exact startsLeft_withWorker (by rw [hpc]; exact le_rfl)
  | popTask_empty j hpc hqueue =>
      exact startsLeft_withWorker (by rw [hpc]; exact le_rfl)
  | popTask_task j task rest hpc hqueue =>
      exact startsLeft_withWorker (s := take task rest s)
        (by rw [take_worker, hpc]; exact le_rfl)
  | lockMutex j hpc hmutex =>
      exact startsLeft_withWorker (by rw [hpc]; exact le_rfl)
  | loadBlock_leave j hpc hblock =>
      exact startsLeft_withWorker (by rw [hpc]; exact Nat.zero_le 1)
  | loadBlock_go j hpc hblock =>
      exact startsLeft_withWorker (by rw [hpc]; exact le_rfl)
  | condWait j hpc hmutex =>
      exact startsLeft_withWorker (by rw [hpc]; exact le_rfl)
  | spurious j hpc =>
      exact startsLeft_withWorker (by rw [hpc]; exact le_rfl)
  | relock j hpc hmutex =>
      exact startsLeft_withWorker (by rw [hpc]; exact le_rfl)
  | unlockMutex j hpc hmutex =>
      exact startsLeft_withWorker (by rw [hpc]; exact le_rfl)
  | startTask j task hpc =>
      by_cases hij : j = i
      · subst hij
        simp [startsLeft, Action.starts, hpc, WorkerPc.startsLeft]
      · simp [startsLeft, Action.starts, hij, Ne.symm hij]
  | finishTask j task hpc =>
      exact startsLeft_withWorker (by rw [hpc]; exact le_rfl)
  | signal_heard c task j hpc hwaiting =>
      exact startsLeft_withWorker (s := s)
        (by rw [hwaiting]; exact le_rfl)
  | broadcast c hpc => exact startsLeft_wakeAll.le
  | _ => exact le_rfl

theorem countP_starts_le {actions : List (Action n)} (h : HasQuit s)
    (hrun : execute poolStep actions s = some s') :
    actions.countP (Action.starts i) ≤ 1 := by
  have hspent := countP_le_potential HasQuit (Action.starts i)
    (startsLeft i) (fun _ _ _ hu hstep => hasQuit_step hu hstep)
    (fun _ _ _ hu hstep => startsLeft_moves hu (moves_of_poolStep hstep))
    h hrun
  have hone := (s.worker i).startsLeft_le
  unfold startsLeft at hspent
  omega

end Starts

/-! ## Workers that have returned -/

section Returned

variable {s s' : Pool n} {a : Action n} {i : Fin n}

theorem returned_withWorker {j : Fin n} {pc : WorkerPc}
    (h : s.worker i = .returned) (hpc : s.worker j ≠ .returned) :
    (withWorker j pc s).worker i = .returned := by
  have hne : i ≠ j := by
    rintro rfl
    exact hpc h
  simpa [hne] using h

theorem returned_moves (h : s.worker i = .returned) (hmove : Moves s a s') :
    s'.worker i = .returned := by
  cases hmove with
  | testQuit_go j hpc hquit => exact returned_withWorker h (by simp [hpc])
  | testQuit_leave j hpc hquit => exact returned_withWorker h (by simp [hpc])
  | popTask_empty j hpc hqueue => exact returned_withWorker h (by simp [hpc])
  | popTask_task j task rest hpc hqueue =>
      exact returned_withWorker (s := take task rest s) h (by simp [hpc])
  | lockMutex j hpc hmutex => exact returned_withWorker h (by simp [hpc])
  | loadBlock_leave j hpc hblock =>
      exact returned_withWorker h (by simp [hpc])
  | loadBlock_go j hpc hblock => exact returned_withWorker h (by simp [hpc])
  | condWait j hpc hmutex => exact returned_withWorker h (by simp [hpc])
  | spurious j hpc => exact returned_withWorker h (by simp [hpc])
  | relock j hpc hmutex => exact returned_withWorker h (by simp [hpc])
  | unlockMutex j hpc hmutex => exact returned_withWorker h (by simp [hpc])
  | startTask j task hpc =>
      exact returned_withWorker (s := execute task s) h (by simp [hpc])
  | finishTask j task hpc => exact returned_withWorker h (by simp [hpc])
  | signal_heard c task j hpc hwaiting =>
      exact returned_withWorker h (by simp [hwaiting])
  | broadcast c hpc => simp [h, wake]
  | _ => exact h

/-- Every step of a worker needs it at some place of its loop. -/
theorem working_of_byWorker (hmove : Moves s a s')
    (hby : a.byWorker = some i) : s.worker i ≠ .returned := by
  cases hmove with
  | testQuit_go j hpc hquit =>
      cases hby
      simp [hpc]
  | testQuit_leave j hpc hquit =>
      cases hby
      simp [hpc]
  | popTask_empty j hpc hqueue =>
      cases hby
      simp [hpc]
  | popTask_task j task rest hpc hqueue =>
      cases hby
      simp [hpc]
  | lockMutex j hpc hmutex =>
      cases hby
      simp [hpc]
  | loadBlock_leave j hpc hblock =>
      cases hby
      simp [hpc]
  | loadBlock_go j hpc hblock =>
      cases hby
      simp [hpc]
  | condWait j hpc hmutex =>
      cases hby
      simp [hpc]
  | spurious j hpc =>
      cases hby
      simp [hpc]
  | relock j hpc hmutex =>
      cases hby
      simp [hpc]
  | unlockMutex j hpc hmutex =>
      cases hby
      simp [hpc]
  | startTask j task hpc =>
      cases hby
      simp [hpc]
  | finishTask j task hpc =>
      cases hby
      simp [hpc]
  | _ => cases hby

theorem heeds_workerGone {actions : List (Action n)}
    (h : s.worker i = .returned)
    (hrun : execute poolStep actions s = some s') :
    Heeds poolStep (WorkerGone i) actions s := by
  apply heeds_of_inv (fun u => u.worker i = .returned) ?_ ?_ h hrun
  · intro u a u' hu hstep
    exact returned_moves hu (moves_of_poolStep hstep)
  · intro u a u' hu hstep
    refine ⟨hu, ?_⟩
    intro hby
    exact working_of_byWorker (moves_of_poolStep hstep) hby hu

end Returned

/-! ## Posts that begin later -/

/-- The call of `thread_pool_post` has passed its test of `quit`. -/
def ClientPc.pastTest : ClientPc → Bool
  | .allocating _ _ => true
  | .adding _ => true
  | .signalling _ => true
  | _ => false

structure LateClient (c : ℕ) (s : Pool n) : Prop where
  quit : HasQuit s
  before : (s.client c).pastTest = false

section Posts

variable {s s' : Pool n} {a : Action n} {c : ℕ}

theorem before_withClient {c' : ℕ} {pc : ClientPc}
    (h : (s.client c).pastTest = false)
    (hpc : (s.client c').pastTest = false → pc.pastTest = false) :
    ((withClient c' pc s).client c).pastTest = false := by
  by_cases hcc : c = c'
  · subst hcc
    simpa using hpc h
  · simpa [hcc] using h

theorem lateClient_moves (h : LateClient c s) (hmove : Moves s a s') :
    LateClient c s' := by
  have hquit := hasQuit_moves h.quit hmove
  refine ⟨hquit, ?_⟩
  have hbefore := h.before
  cases hmove with
  | post c' func arg hpc => exact before_withClient hbefore (fun _ => rfl)
  | testPost_refuse c' func arg hpc hquit =>
      exact before_withClient hbefore (fun _ => rfl)
  | testPost_go c' func arg hpc hnot => exact absurd h.quit hnot
  | allocate_refuse c' func arg hpc =>
      exact before_withClient hbefore (fun _ => rfl)
  | allocate_grant c' func arg hpc =>
      exact before_withClient (s := create s) hbefore
        (by simp [hpc, ClientPc.pastTest])
  | addTask c' task hpc =>
      exact before_withClient (s := enqueue task s) hbefore
        (by simp [hpc, ClientPc.pastTest])
  | signal_heard c' task j hpc hwaiting =>
      exact before_withClient (s := accept task (withWorker j .relock s))
        hbefore (fun _ => rfl)
  | signal_unheard c' task hpc hnone =>
      exact before_withClient (s := accept task s) hbefore (fun _ => rfl)
  | terminate c' hpc => exact before_withClient hbefore (fun _ => rfl)
  | storeQuit c' hpc =>
      exact before_withClient (s := withQuit 1 s) hbefore (fun _ => rfl)
  | storeBlock c' hpc =>
      exact before_withClient (s := withBlock 0 s) hbefore (fun _ => rfl)
  | broadcast c' hpc =>
      exact before_withClient (s := wakeAll s) hbefore (fun _ => rfl)
  | _ => exact hbefore

/-- The steps behind the test need the client to be past it. -/
theorem past_of_pastTest (hmove : Moves s a s') (hpast : a.pastTest = some c) :
    (s.client c).pastTest = true := by
  cases hmove with
  | allocate_refuse c' func arg hpc =>
      cases hpast
      rw [hpc]
      rfl
  | allocate_grant c' func arg hpc =>
      cases hpast
      rw [hpc]
      rfl
  | addTask c' task hpc =>
      cases hpast
      rw [hpc]
      rfl
  | signal_heard c' task j hpc hwaiting =>
      cases hpast
      rw [hpc]
      rfl
  | signal_unheard c' task hpc hnone =>
      cases hpast
      rw [hpc]
      rfl
  | _ => cases hpast

theorem postRefused_of_late (h : LateClient c s)
    (hstep : poolStep s a = some s') : PostRefused c s a := by
  have hmove := moves_of_poolStep hstep
  constructor
  · intro hpast
    have hthere := past_of_pastTest hmove hpast
    rw [h.before] at hthere
    cases hthere
  · rintro rfl
    have hquit : s.quit = 1 := h.quit
    refine ⟨by rw [postResult, if_pos hquit], ?_⟩
    cases hmove with
    | testPost_refuse c' func arg hpc _ => exact hstep
    | testPost_go c' func arg hpc hnot => exact absurd hquit hnot

theorem heeds_postRefused {actions : List (Action n)} (h : LateClient c s)
    (hrun : execute poolStep actions s = some s') :
    Heeds poolStep (PostRefused c) actions s := by
  apply heeds_of_inv (LateClient c) ?_ ?_ h hrun
  · intro u a u' hu hstep
    exact lateClient_moves hu (moves_of_poolStep hstep)
  · intro u a u' hu hstep
    exact postRefused_of_late hu hstep

/-- A call that begins after `quit` was set is late. -/
theorem lateClient_post {func arg : ℕ} (h : HasQuit s)
    (hstep : poolStep s (.post c func arg) = some s') : LateClient c s' := by
  refine ⟨hasQuit_step h hstep, ?_⟩
  cases moves_of_poolStep hstep with
  | post _ _ _ hpc => simp [ClientPc.pastTest]

end Posts

/-! ## After the step that sets `quit` -/

section Shutdown

variable {s t : Pool n} {c : ℕ}

theorem hasQuit_storeQuit {front : List (Action n)}
    (hfront : execute poolStep (front ++ [.storeQuit c]) (Pool.initial n)
      = some s) : HasQuit s := by
  rw [execute_append] at hfront
  obtain ⟨u, -, hlast⟩ := Option.bind_eq_some_iff.mp hfront
  obtain ⟨u', hstep, hend⟩ := Option.bind_eq_some_iff.mp hlast
  cases hend
  cases moves_of_poolStep hstep with
  | storeQuit _ hpc => rfl

/-- After the step that sets `quit` each worker starts one task at most, the
calls of `thread_pool_post` that begin later return -1 without adding a task,
and a worker that has returned takes no step. -/
theorem boundedWork_after_quit {front rest : List (Action n)}
    (hfront : execute poolStep (front ++ [.storeQuit c]) (Pool.initial n)
      = some s) (hrest : execute poolStep rest s = some t) :
    WorkBounded s rest := by
  have hquit := hasQuit_storeQuit hfront
  constructor
  · intro i
    exact countP_starts_le hquit hrest
  · intro before after c' func arg hsplit u hu
    have hsplit' : rest = (before ++ [.post c' func arg]) ++ after := by
      rw [hsplit, List.append_assoc]
      rfl
    rw [hsplit', execute_append, hu] at hrest
    rw [Option.mem_def, execute_append] at hu
    obtain ⟨v, hbefore, hlast⟩ := Option.bind_eq_some_iff.mp hu
    obtain ⟨v', hstep, hend⟩ := Option.bind_eq_some_iff.mp hlast
    cases hend
    have hlate := lateClient_post (hasQuit_execute hquit hbefore) hstep
    exact heeds_postRefused hlate hrest
  · intro before after i hsplit u hu hreturned
    rw [hsplit, execute_append, hu] at hrest
    exact heeds_workerGone hreturned hrest

/-- The worker `i` holds a task when the pool is terminated. -/
def holdingFront (i : Fin n) : List (Action n) :=
  [.post 0 7 7, .testPost 0, .allocate 0 true, .addTask 0, .signal 0 none,
    .testQuit i, .popTask i, .terminate 1]

/-- It starts the task, and leaves; a later post is refused. -/
def holdingRest (i : Fin n) : List (Action n) :=
  [.post 0 8 8, .startTask i, .testPost 0, .finishTask i, .testQuit i]

theorem boundedWork_after_quit_sample : ∃ s : Pool 1,
    execute poolStep (holdingFront 0 ++ [.storeQuit 1]) (Pool.initial 1)
      = some s ∧ WorkBounded s (holdingRest 0) := by
  have hsome : (execute poolStep
      ((holdingFront 0 ++ [.storeQuit 1]) ++ holdingRest 0)
      (Pool.initial 1)).isSome = true := by
    decide
  obtain ⟨t, ht⟩ := Option.isSome_iff_exists.mp hsome
  rw [execute_append] at ht
  obtain ⟨s, hfront, hrest⟩ := Option.bind_eq_some_iff.mp ht
  exact ⟨s, hfront, boundedWork_after_quit hfront hrest⟩

end Shutdown

end CAdvanced
