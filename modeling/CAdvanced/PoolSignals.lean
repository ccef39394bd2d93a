import CAdvanced.ThreadPool

/-!
# Wakeups and the mutex of the thread pool

A worker looks for a task, and waits, in several steps; what happens in between
is seen by it only if it is enrolled already.  Each of the three properties here
holds in all runs that avoid one kind of step, and a short schedule with such a
step breaks it.
-/

namespace CAdvanced

open Transition
open Pool

variable {n : ℕ}

/-! ## Signals -/

/-- The worker looks into the queue before it can wait. -/
def WorkerPc.looks : WorkerPc → Bool
  | .lockMutex | .loadBlock | .condWait | .waiting | .returned => false
  | _ => true

/-- Tasks are queued, every worker that is left sleeps, and no signal is on its
way. -/
structure LostWakeup (s : Pool n) : Prop where
  queue : s.queue ≠ []
  asleep : ∀ i, s.worker i ≠ .returned → s.worker i = .waiting
  noSignal : ∀ c task, s.client c ≠ .signalling task

/-- When a task may be queued, a signal finds a thread that sleeps, or some
worker will look by itself, or another signal follows. -/
def SignalHeard (s : Pool n) : Action n → Prop
  | .signal c _ =>
      s.queue = [] ∨ (∃ i, s.worker i = .waiting) ∨
        (∃ i, (s.worker i).looks = true) ∨
        ∃ c' task, c' ≠ c ∧ s.client c' = .signalling task
  | _ => True

/-- Somebody will look at the queue. -/
def Attended (s : Pool n) : Prop :=
  s.queue = [] ∨ (∃ i, (s.worker i).looks = true) ∨
    ∃ c task, s.client c = .signalling task

section Signals

variable {s s' : Pool n} {a : Action n}

theorem Attended.worker (h : Attended s) {i : Fin n} {pc : WorkerPc}
    (hpc : (s.worker i).looks = false ∨ pc.looks = true) :
    Attended (withWorker i pc s) := by
  rcases h with hqueue | ⟨j, hj⟩ | hsignal
  · exact Or.inl hqueue
  · by_cases hij : j = i
    · subst hij
      have hlooks : pc.looks = true := by simpa [hj] using hpc
      exact Or.inr (Or.inl ⟨j, by simpa using hlooks⟩)
    · exact Or.inr (Or.inl ⟨j, by simpa [hij] using hj⟩)
  · exact Or.inr (Or.inr hsignal)

theorem Attended.client (h : Attended s) {c : ℕ} {pc : ClientPc}
    (hpc : ∀ task, s.client c ≠ .signalling task) :
    Attended (withClient c pc s) := by
  rcases h with hqueue | hlooks | ⟨c', task, hc'⟩
  · exact Or.inl hqueue
  · exact Or.inr (Or.inl hlooks)
  · have hne : c' ≠ c := by
      intro heq
      subst heq
      exact hpc task hc'
    exact Or.inr (Or.inr ⟨c', task, by simpa [hne] using hc'⟩)

theorem looks_wake {pc : WorkerPc} (h : pc.looks = true) :
    (wake pc).looks = true := by
  cases pc <;> first | exact h | rfl

theorem Attended.wakeAll (h : Attended s) : Attended (wakeAll s) := by
  rcases h with hqueue | ⟨i, hi⟩ | hsignal
  · exact Or.inl hqueue
  · exact Or.inr (Or.inl ⟨i, looks_wake hi⟩)
  · exact Or.inr (Or.inr hsignal)

/-- Whoever attends to a queue that is not empty attends to any queue. -/
theorem Attended.of_nonempty (h : Attended s) (hqueue : s.queue ≠ []) :
    (∃ i, (s.worker i).looks = true) ∨
      ∃ c task, s.client c = .signalling task := by
  rcases h with hempty | hothers
  · exact absurd hempty hqueue
  · exact hothers

theorem attended_signal {c : ℕ} {task : Task} (hnone : ∀ i, s.worker i ≠ .waiting)
    (hheard : SignalHeard s (.signal c none)) :
    Attended (withClient c .idle (accept task s)) := by
  rcases hheard with hqueue | ⟨i, hi⟩ | hlooks | ⟨c', task', hne, hc'⟩
  · exact Or.inl hqueue
  · exact absurd hi (hnone i)
  · exact Or.inr (Or.inl hlooks)
  · exact Or.inr (Or.inr ⟨c', task', by simpa [hne] using hc'⟩)

theorem attended_moves (h : s.quit = 0 → Attended s)
    (hheard : SignalHeard s a) (hmove : Moves s a s') :
    s'.quit = 0 → Attended s' := by
  intro hquit
  cases hmove with
  | testQuit_go i hpc hq => exact (h hquit).worker (Or.inr rfl)
  | testQuit_leave i hpc hq => exact absurd hquit hq
  | popTask_empty i hpc hqueue => exact Or.inl hqueue
  | popTask_task i task rest hpc hqueue =>
      exact Or.inr (Or.inl ⟨i, by simp [WorkerPc.looks]⟩)
  | lockMutex i hpc hmutex =>
      exact (h hquit).worker (Or.inl (by rw [hpc]; rfl))
  | loadBlock_leave i hpc hblock =>
      exact (h hquit).worker (Or.inl (by rw [hpc]; rfl))
  | loadBlock_go i hpc hblock =>
      exact (h hquit).worker (Or.inl (by rw [hpc]; rfl))
  | condWait i hpc hmutex =>
      exact (h hquit).worker (Or.inl (by rw [hpc]; rfl))
  | spurious i hpc => exact (h hquit).worker (Or.inr rfl)
  | relock i hpc hmutex => exact (h hquit).worker (Or.inr rfl)
  | unlockMutex i hpc hmutex => exact (h hquit).worker (Or.inr rfl)
  | startTask i task hpc => exact (h hquit).worker (Or.inr rfl)
  | finishTask i task hpc => exact (h hquit).worker (Or.inr rfl)
  | post c func arg hpc => exact (h hquit).client (by simp [hpc])
  | testPost_refuse c func arg hpc hq => exact (h hquit).client (by simp [hpc])
  | testPost_go c func arg hpc hq => exact (h hquit).client (by simp [hpc])
  | allocate_refuse c func arg hpc => exact (h hquit).client (by simp [hpc])
  | allocate_grant c func arg hpc => exact (h hquit).client (by simp [hpc])
  | addTask c task hpc => exact Or.inr (Or.inr ⟨c, task, by simp⟩)
  | signal_heard c task i hpc hwaiting =>
      exact Or.inr (Or.inl ⟨i, by simp [WorkerPc.looks]⟩)
  | signal_unheard c task hpc hnone => exact attended_signal hnone hheard
  | terminate c hpc => exact (h hquit).client (by simp [hpc])
  | storeQuit c hpc => simp at hquit
  | storeBlock c hpc => exact (h hquit).client (by simp [hpc])
  | broadcast c hpc =>
      exact Attended.client (h hquit).wakeAll (by simp [hpc])
  | waitdone hpc => exact h hquit
  | join_worker count hpc hlt hreturned => exact h hquit
  | join_all count hpc hge => exact h hquit
  | drain_task task rest hpc hqueue =>
      exact Or.inr ((h hquit).of_nonempty (by simp [hqueue]))
  | drain_empty hpc hqueue => exact h hquit
  | destroy hpc => exact h hquit

/-- Before termination no task waits for a worker that nobody wakes, if every
signal is heard. -/
theorem noLostWakeup {s : Pool n}
    (hrun : Reach poolStep SignalHeard (Pool.initial n) s)
    (hquit : s.quit = 0) : ¬ LostWakeup s := by
  have hinv : s.quit = 0 → Attended s :=
    reach_invariant hrun (fun _ => Or.inl rfl)
      (fun _ _ _ h hheard hmove => attended_moves h hheard hmove)
  intro hlost
  rcases (hinv hquit).of_nonempty hlost.queue with ⟨i, hi⟩ | ⟨c, task, hc⟩
  · have hlive : s.worker i ≠ .returned := by
      intro heq
      rw [heq] at hi
      cases hi
    rw [hlost.asleep i hlive] at hi
    cases hi
  · exact hlost.noSignal c task hc

/-- A task is posted while the only worker tests `quit`. -/
theorem noLostWakeup_sample : ∃ s : Pool 1,
    execute poolStep [.post 0 7 8, .testPost 0, .allocate 0 true, .addTask 0,
      .signal 0 none] (Pool.initial 1) = some s ∧ ¬ LostWakeup s := by
  have hstart : Reach poolStep SignalHeard (Pool.initial 1)
      (Pool.initial 1) := .start
  have hadded := (((hstart.next (Action.post 0 7 8) trivial rfl).next
    (Action.testPost 0) trivial rfl).next (Action.allocate 0 true) trivial
    rfl).next (Action.addTask 0) trivial rfl
  have hsignal := hadded.next (Action.signal 0 none)
    (Or.inr (Or.inr (Or.inl ⟨0, rfl⟩))) rfl
  exact ⟨_, rfl, noLostWakeup hsignal rfl⟩

/-- The signal comes when the only worker has found the queue empty and does
not sleep yet. -/
theorem lostWakeup_reachable : ∃ s : Pool 1,
    Reachable poolStep (Pool.initial 1) s ∧ s.quit = 0 ∧ LostWakeup s := by
  have hrun : ∃ s, execute poolStep [.testQuit 0, .popTask 0, .post 0 7 8,
      .testPost 0, .allocate 0 true, .addTask 0, .signal 0 none, .lockMutex 0,
      .loadBlock 0, .condWait 0] (Pool.initial 1) = some s ∧
      s.quit = 0 ∧ s.queue ≠ [] ∧ (∀ i, s.worker i = .waiting) ∧
      ∀ c, s.client c = .idle := by
    refine ⟨_, rfl, rfl, by decide, by decide, ?_⟩
    intro c
    by_cases hc : c = 0
    · subst hc
      rfl
    · simp [hc, Pool.initial]
  obtain ⟨s, hrun, hquit, hqueue, hworker, hclient⟩ := hrun
  refine ⟨s, reachable_of_execute hrun, hquit, hqueue,
    fun i _ => hworker i, ?_⟩
  intro c task
  rw [hclient c]
  simp

end Signals

/-! ## The broadcast -/

def Action.isBroadcast : Action n → Bool
  | .broadcast _ => true
  | _ => false

/-- No worker stands between its test of `block` and its wait when the threads
are woken. -/
def BroadcastHeard (s : Pool n) (a : Action n) : Prop :=
  a.isBroadcast = true → ∀ i, s.worker i ≠ .condWait

instance (s : Pool n) (a : Action n) : Decidable (BroadcastHeard s a) :=
  inferInstanceAs (Decidable (_ → _))

/-- Once the threads were woken, no worker waits any more. -/
structure WokenUp (s : Pool n) : Prop where
  blocked : ∀ c, s.client c = .broadcasting → s.block = 0
  zero : s.terminated = true → s.block = 0
  awake : s.terminated = true →
    ∀ i, s.worker i ≠ .condWait ∧ s.worker i ≠ .waiting

section Broadcast

variable {s s' : Pool n} {a : Action n}

/-- The other fields do not matter. -/
theorem WokenUp.frame (h : WokenUp s) (hblock : s'.block = s.block)
    (hworker : s'.worker = s.worker) (hclient : s'.client = s.client)
    (hterm : s'.terminated = s.terminated) : WokenUp s' where
  blocked := by
    rw [hclient, hblock]
    exact h.blocked
  zero := by
    rw [hterm, hblock]
    exact h.zero
  awake := by
    rw [hterm, hworker]
    exact h.awake

theorem WokenUp.worker (h : WokenUp s) {i : Fin n} {pc : WorkerPc}
    (hpc : s.terminated = true → pc ≠ .condWait ∧ pc ≠ .waiting) :
    WokenUp (withWorker i pc s) := by
  refine ⟨h.blocked, h.zero, ?_⟩
  intro hterm j
  by_cases hij : j = i
  · subst hij
    simpa using hpc hterm
  · simpa [hij] using h.awake hterm j

theorem WokenUp.client (h : WokenUp s) {c : ℕ} {pc : ClientPc}
    (hpc : pc = .broadcasting → s.block = 0) :
    WokenUp (withClient c pc s) := by
  refine ⟨?_, h.zero, h.awake⟩
  intro c' hc'
  by_cases hcc : c' = c
  · subst hcc
    exact hpc (by simpa using hc')
  · exact h.blocked c' (by simpa [hcc] using hc')

theorem WokenUp.wakeAll (h : WokenUp s) (hblock : s.block = 0)
    (hnone : ∀ i, s.worker i ≠ .condWait) : WokenUp (wakeAll s) := by
  refine ⟨h.blocked, fun _ => hblock, ?_⟩
  intro _ i
  have hi := hnone i
  simp only [wakeAll_worker]
  cases hpc : s.worker i <;> simp_all [wake]

theorem wokenUp_moves (h : WokenUp s) (hheard : BroadcastHeard s a)
    (hmove : Moves s a s') : WokenUp s' := by
  cases hmove with
  | testQuit_go i hpc hquit => exact h.worker (by simp)
  | testQuit_leave i hpc hquit => exact h.worker (by simp)
  | popTask_empty i hpc hqueue => exact h.worker (by simp)
  | popTask_task i task rest hpc hqueue =>
      have htake : WokenUp (take task rest s) := h.frame rfl rfl rfl rfl
      exact htake.worker (by simp)
  | lockMutex i hpc hmutex =>
      have hworker : WokenUp (withWorker i .loadBlock s) := h.worker (by simp)
      exact hworker.frame rfl rfl rfl rfl
  | loadBlock_leave i hpc hblock => exact h.worker (by simp)
  | loadBlock_go i hpc hblock =>
      exact h.worker (fun hterm => absurd (h.zero hterm) hblock)
  | condWait i hpc hmutex =>
      have hsleeps : WokenUp (withWorker i .waiting s) :=
        h.worker (fun hterm => absurd hpc (h.awake hterm i).1)
      exact hsleeps.frame rfl rfl rfl rfl
  | spurious i hpc => exact h.worker (by simp)
  | relock i hpc hmutex =>
      have hworker : WokenUp (withWorker i .unlockMutex s) :=
        h.worker (by simp)
      exact hworker.frame rfl rfl rfl rfl
  | unlockMutex i hpc hmutex =>
      have hworker : WokenUp (withWorker i .popTask s) := h.worker (by simp)
      exact hworker.frame rfl rfl rfl rfl
  | startTask i task hpc =>
      have hexecute : WokenUp (execute task s) := h.frame rfl rfl rfl rfl
      exact hexecute.worker (by simp)
  | finishTask i task hpc => exact h.worker (by simp)
  | post c func arg hpc => exact h.client (by simp)
  | testPost_refuse c func arg hpc hquit => exact h.client (by simp)
  | testPost_go c func arg hpc hquit => exact h.client (by simp)
  | allocate_refuse c func arg hpc => exact h.client (by simp)
  | allocate_grant c func arg hpc =>
      have hcreate : WokenUp (create s) := h.frame rfl rfl rfl rfl
      exact hcreate.client (by simp)
  | addTask c task hpc =>
      have henqueue : WokenUp (enqueue task s) := h.frame rfl rfl rfl rfl
      exact henqueue.client (by simp)
  | signal_heard c task i hpc hwaiting =>
      have hwoken : WokenUp (withWorker i .relock s) := h.worker (by simp)
      have haccept : WokenUp (accept task (withWorker i .relock s)) :=
        hwoken.frame rfl rfl rfl rfl
      exact haccept.client (by simp)
  | signal_unheard c task hpc hnone =>
      have haccept : WokenUp (accept task s) := h.frame rfl rfl rfl rfl
      exact haccept.client (by simp)
  | terminate c hpc => exact h.client (by simp)
  | storeQuit c hpc =>
      have hquit : WokenUp (withQuit 1 s) := h.frame rfl rfl rfl rfl
      exact hquit.client (by simp)
  | storeBlock c hpc =>
      have hzero : WokenUp (withBlock 0 s) :=
        ⟨fun _ _ => rfl, fun _ => rfl, h.awake⟩
      exact hzero.client (fun _ => rfl)
  | broadcast c hpc =>
      have hall := h.wakeAll (h.blocked c hpc) (hheard rfl)
      exact hall.client (by simp)
  | waitdone hpc => exact h.frame rfl rfl rfl rfl
  | join_worker count hpc hlt hreturned => exact h.frame rfl rfl rfl rfl
  | join_all count hpc hge => exact h.frame rfl rfl rfl rfl
  | drain_task task rest hpc hqueue => exact h.frame rfl rfl rfl rfl
  | drain_empty hpc hqueue => exact h.frame rfl rfl rfl rfl
  | destroy hpc => exact h.frame rfl rfl rfl rfl

/-- After `thread_pool_terminate` no worker sleeps, if every broadcast is
heard. -/
theorem noSleeperAfterTerminate {s : Pool n}
    (hrun : Reach poolStep BroadcastHeard (Pool.initial n) s)
    (hterm : s.terminated = true) (i : Fin n) : s.worker i ≠ .waiting := by
  have hstart : WokenUp (Pool.initial n) :=
    ⟨by simp [Pool.initial], by simp [Pool.initial], by simp [Pool.initial]⟩
  have hinv : WokenUp s := reach_invariant hrun hstart
    (fun _ _ _ h hheard hmove => wokenUp_moves h hheard hmove)
  exact (hinv.awake hterm i).2

/-- The only worker sleeps when the threads are woken. -/
def terminateSchedule : List (Action 1) :=
  [.testQuit 0, .popTask 0, .lockMutex 0, .loadBlock 0, .condWait 0,
    .terminate 0, .storeQuit 0, .storeBlock 0, .broadcast 0]

theorem noSleeperAfterTerminate_sample : ∃ s : Pool 1,
    execute poolStep terminateSchedule (Pool.initial 1) = some s ∧
      s.worker 0 ≠ .waiting :=
  ⟨_, rfl, noSleeperAfterTerminate
    (Reach.start.execute terminateSchedule (by decide) rfl) rfl 0⟩

/-- The threads are woken when the only worker has tested `block` and does not
sleep yet. -/
theorem sleeperAfterTerminate_reachable : ∃ s : Pool 1,
    Reachable poolStep (Pool.initial 1) s ∧ s.terminated = true ∧
      s.worker 0 = .waiting := by
  have hrun : ∃ s, execute poolStep [.testQuit 0, .popTask 0, .lockMutex 0,
      .loadBlock 0, .terminate 0, .storeQuit 0, .storeBlock 0, .broadcast 0,
      .condWait 0] (Pool.initial 1) = some s ∧ s.terminated = true ∧
      s.worker 0 = .waiting := ⟨_, rfl, rfl, rfl⟩
  obtain ⟨s, hrun, hterm, hworker⟩ := hrun
  exact ⟨s, reachable_of_execute hrun, hterm, hworker⟩

end Broadcast

/-! ## The mutex -/

/-- The worker is between its lock and its unlock in `__get_task`. -/
def WorkerPc.insideMutex : WorkerPc → Bool
  | .loadBlock | .condWait | .unlockMutex => true
  | _ => false

/-- Only a worker inside `__get_task` has the mutex, and it is free when it is
destroyed. -/
structure MutexDiscipline (s : Pool n) : Prop where
  owner : ∀ i, s.mutex = some i → (s.worker i).insideMutex = true
  free : s.waitdone = .destroying → s.mutex = none

def Action.isLoadBlock : Action n → Bool
  | .loadBlock _ => true
  | _ => false

/-- No worker finds `block` cleared while it has the mutex. -/
def StaysInside (s : Pool n) (a : Action n) : Prop :=
  a.isLoadBlock = true → s.block ≠ 0

instance (s : Pool n) (a : Action n) : Decidable (StaysInside s a) :=
  inferInstanceAs (Decidable (_ → _))

def OwnerInside (s : Pool n) : Prop :=
  ∀ i, s.mutex = some i → (s.worker i).insideMutex = true

section Mutex

variable {s s' : Pool n} {a : Action n}

theorem OwnerInside.worker (h : OwnerInside s) {i : Fin n} {pc : WorkerPc}
    (hpc : (s.worker i).insideMutex = false) :
    OwnerInside (withWorker i pc s) := by
  intro j hj
  have hinside := h j hj
  have hne : j ≠ i := by
    intro heq
    subst heq
    rw [hinside] at hpc
    cases hpc
  simpa [hne] using hinside

theorem insideMutex_wake {pc : WorkerPc} (h : pc.insideMutex = true) :
    (wake pc).insideMutex = true := by
  cases pc <;> exact h

theorem ownerInside_lock {i : Fin n} {pc : WorkerPc}
    (hpc : pc.insideMutex = true) :
    OwnerInside (withMutex (some i) (withWorker i pc s)) := by
  intro j hj
  have heq : i = j := Option.some.inj hj
  subst heq
  simpa using hpc

theorem ownerInside_free (t : Pool n) : OwnerInside (withMutex none t) := by
  intro j hj
  cases hj

theorem ownerInside_moves (h : OwnerInside s) (hstays : StaysInside s a)
    (hmove : Moves s a s') : OwnerInside s' := by
  cases hmove with
  | testQuit_go i hpc hquit => exact h.worker (by rw [hpc]; rfl)
  | testQuit_leave i hpc hquit => exact h.worker (by rw [hpc]; rfl)
  | popTask_empty i hpc hqueue => exact h.worker (by rw [hpc]; rfl)
  | popTask_task i task rest hpc hqueue =>
      exact OwnerInside.worker (s := take task rest s) h
        (by rw [take_worker, hpc]; rfl)
  | lockMutex i hpc hmutex => exact ownerInside_lock rfl
  | loadBlock_leave i hpc hblock => exact absurd hblock (hstays rfl)
  | loadBlock_go i hpc hblock =>
      intro j hj
      by_cases hij : j = i
      · subst hij
        simp [WorkerPc.insideMutex]
      · simpa [hij] using h j hj
  | condWait i hpc hmutex => exact ownerInside_free _
  | spurious i hpc => exact h.worker (by rw [hpc]; rfl)
  | relock i hpc hmutex => exact ownerInside_lock rfl
  | unlockMutex i hpc hmutex => exact ownerInside_free _
  | startTask i task hpc =>
      exact OwnerInside.worker (s := execute task s) h
        (by rw [execute_worker, hpc]; rfl)
  | finishTask i task hpc => exact h.worker (by rw [hpc]; rfl)
  | signal_heard c task i hpc hwaiting =>
      exact h.worker (by rw [hwaiting]; rfl)
  | broadcast c hpc => exact fun i hi => insideMutex_wake (h i hi)
  | _ => exact h

/-- Only workers inside `__get_task` ever have the mutex, if none of them finds
`block` cleared. -/
theorem mutexDiscipline {s : Pool n}
    (hrun : Reach poolStep StaysInside (Pool.initial n) s) :
    MutexDiscipline s := by
  have howner : OwnerInside s :=
    reach_invariant hrun (fun i hi => nomatch hi)
      (fun _ _ _ h hstays hmove => ownerInside_moves h hstays hmove)
  refine ⟨howner, ?_⟩
  intro hdestroying
  rw [Option.eq_none_iff_forall_ne_some]
  intro i hi
  have hinside := howner i hi
  rw [reach_joined hrun i (by rw [hdestroying]; exact i.isLt)] at hinside
  cases hinside

/-- A worker waits for a task, is woken by a post, and leaves at its next test
of `quit`; then it is joined. -/
def leaveSchedule : List (Action 1) :=
  [.testQuit 0, .popTask 0, .lockMutex 0, .loadBlock 0, .condWait 0,
    .post 0 7 8, .testPost 0, .allocate 0 true, .addTask 0, .signal 0 (some 0),
    .relock 0, .unlockMutex 0, .popTask 0, .startTask 0, .finishTask 0,
    .terminate 0, .storeQuit 0, .storeBlock 0, .broadcast 0, .testQuit 0,
    .waitdone, .join, .join, .drain]

theorem mutexDiscipline_sample : ∃ s : Pool 1,
    execute poolStep leaveSchedule (Pool.initial 1) = some s ∧
      s.executed = [⟨0, 7, 8⟩] ∧ s.waitdone = .destroying ∧
      MutexDiscipline s :=
  ⟨_, rfl, rfl, rfl, mutexDiscipline
    (Reach.start.execute leaveSchedule (by decide) rfl)⟩

/-- Worker 0 finds `block` cleared and returns with the mutex; worker 1, which
was woken, waits for it forever. -/
theorem mutexLeak_reachable : ∃ s : Pool 2,
    Reachable poolStep (Pool.initial 2) s ∧ ¬ MutexDiscipline s ∧
      s.worker 0 = .returned ∧ s.worker 1 = .relock := by
  have hrun : ∃ s, execute poolStep [.testQuit 1, .popTask 1, .lockMutex 1,
      .loadBlock 1, .condWait 1, .testQuit 0, .popTask 0, .lockMutex 0,
      .terminate 0, .storeQuit 0, .storeBlock 0, .broadcast 0, .loadBlock 0]
      (Pool.initial 2) = some s ∧ s.mutex = some 0 ∧
      s.worker 0 = .returned ∧ s.worker 1 = .relock :=
    ⟨_, rfl, rfl, rfl, rfl⟩
  obtain ⟨s, hrun, hmutex, hleft, hblocked⟩ := hrun
  refine ⟨s, reachable_of_execute hrun, ?_, hleft, hblocked⟩
  intro hdiscipline
  have hinside := hdiscipline.owner 0 hmutex
  rw [hleft] at hinside
  cases hinside

end Mutex

end CAdvanced
