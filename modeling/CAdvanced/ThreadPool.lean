import CAdvanced.TransitionSystem

/-!
# The thread pool

The steps of `thread_pool.c` on a pool that `thread_pool_create` returned.  Each
section under the spinlock, each access to `quit` or `block` and each call of a
mutex or condition function is one step.  The calls of `thread_pool_post` and
`thread_pool_terminate` come from clients; a client may also be a running task.
The `enqueued`, `taken`, `accepted`, `executed` and `discarded` tasks are
recorded for the statements only.
-/

namespace CAdvanced

open Transition

/-- A block that `thread_pool_post` allocated, the `serial`-th one. -/
structure Task where
  serial : ℕ
  func : ℕ
  arg : ℕ
  deriving DecidableEq

inductive WorkerPc
  | testQuit
  | popTask
  | lockMutex
  | loadBlock
  | condWait
  /-- Enrolled in `pthread_cond_wait`, and not woken. -/
  | waiting
  | relock
  | unlockMutex
  | holding (task : Task)
  | running (task : Task)
  /-- `__threadpool_worker` has returned. -/
  | returned
  deriving DecidableEq

inductive ClientPc
  | idle
  | testing (func arg : ℕ)
  | allocating (func arg : ℕ)
  | adding (task : Task)
  | signalling (task : Task)
  | storingQuit
  | storingBlock
  | broadcasting
  deriving DecidableEq

inductive WaitPc
  | idle
  | joining (count : ℕ)
  | draining
  | destroying
  | returned
  deriving DecidableEq

structure Pool (n : ℕ) where
  quit : ℤ
  block : ℤ
  mutex : Option (Fin n)
  queue : List Task
  worker : Fin n → WorkerPc
  client : ℕ → ClientPc
  waitdone : WaitPc
  created : ℕ
  enqueued : List Task
  taken : List Task
  accepted : List Task
  executed : List Task
  discarded : List Task
  terminated : Bool

/-- All workers are started, and nothing was posted. -/
def Pool.initial (n : ℕ) : Pool n where
  quit := 0
  block := 1
  mutex := none
  queue := []
  worker := fun _ => .testQuit
  client := fun _ => .idle
  waitdone := .idle
  created := 0
  enqueued := []
  taken := []
  accepted := []
  executed := []
  discarded := []
  terminated := false

inductive Action (n : ℕ)
  | testQuit (i : Fin n)
  | popTask (i : Fin n)
  | lockMutex (i : Fin n)
  | loadBlock (i : Fin n)
  | condWait (i : Fin n)
  /-- A wakeup without a signal. -/
  | spurious (i : Fin n)
  | relock (i : Fin n)
  | unlockMutex (i : Fin n)
  | startTask (i : Fin n)
  | finishTask (i : Fin n)
  | post (c func arg : ℕ)
  | testPost (c : ℕ)
  | allocate (c : ℕ) (granted : Bool)
  | addTask (c : ℕ)
  | signal (c : ℕ) (woken : Option (Fin n))
  | terminate (c : ℕ)
  | storeQuit (c : ℕ)
  | storeBlock (c : ℕ)
  | broadcast (c : ℕ)
  | waitdone
  | join
  | drain
  | destroy

namespace Pool

variable {n : ℕ}

@[simps] def withWorker (i : Fin n) (pc : WorkerPc) (s : Pool n) : Pool n :=
  { s with worker := Function.update s.worker i pc }

@[simps] def withClient (c : ℕ) (pc : ClientPc) (s : Pool n) : Pool n :=
  { s with client := Function.update s.client c pc }

@[simps] def withMutex (owner : Option (Fin n)) (s : Pool n) : Pool n :=
  { s with mutex := owner }

@[simps] def withWaitdone (pc : WaitPc) (s : Pool n) : Pool n :=
  { s with waitdone := pc }

@[simps] def withQuit (value : ℤ) (s : Pool n) : Pool n :=
  { s with quit := value }

@[simps] def withBlock (value : ℤ) (s : Pool n) : Pool n :=
  { s with block := value }

/-- `task` leaves the queue. -/
@[simps] def take (task : Task) (rest : List Task) (s : Pool n) : Pool n :=
  { s with queue := rest, taken := s.taken ++ [task] }

@[simps] def enqueue (task : Task) (s : Pool n) : Pool n :=
  { s with
    queue := s.queue ++ [task]
    enqueued := s.enqueued ++ [task] }

@[simps] def accept (task : Task) (s : Pool n) : Pool n :=
  { s with accepted := s.accepted ++ [task] }

@[simps] def execute (task : Task) (s : Pool n) : Pool n :=
  { s with executed := s.executed ++ [task] }

@[simps] def discard (task : Task) (s : Pool n) : Pool n :=
  { s with discarded := s.discarded ++ [task] }

@[simps] def create (s : Pool n) : Pool n :=
  { s with created := s.created + 1 }

/-- The threads that are enrolled are woken. -/
def wake : WorkerPc → WorkerPc
  | .waiting => .relock
  | pc => pc

@[simps] def wakeAll (s : Pool n) : Pool n :=
  { s with
    worker := fun i => wake (s.worker i)
    terminated := true }

end Pool

open Pool

/-! ## Steps -/

section Steps

variable {n : ℕ}

/-- One turn of the loop in `__get_task`, from `__pop_task` on. -/
def getTask (s : Pool n) : Action n → Option (Pool n)
  | .popTask i =>
      if s.worker i = .popTask then
        match s.queue with
        | [] => some (withWorker i .lockMutex s)
        | task :: rest => some (withWorker i (.holding task) (take task rest s))
      else none
  | .lockMutex i =>
      if s.worker i = .lockMutex ∧ s.mutex = none then
        some (withMutex (some i) (withWorker i .loadBlock s))
      else none
  -- the return in the branch of the source leaves the mutex locked
  | .loadBlock i =>
      if s.worker i = .loadBlock then
        some (withWorker i (if s.block = 0 then .returned else .condWait) s)
      else none
  | .condWait i =>
      if s.worker i = .condWait ∧ s.mutex = some i then
        some (withMutex none (withWorker i .waiting s))
      else none
  | .spurious i =>
      if s.worker i = .waiting then some (withWorker i .relock s) else none
  | .relock i =>
      if s.worker i = .relock ∧ s.mutex = none then
        some (withMutex (some i) (withWorker i .unlockMutex s))
      else none
  | .unlockMutex i =>
      if s.worker i = .unlockMutex ∧ s.mutex = some i then
        some (withMutex none (withWorker i .popTask s))
      else none
  | _ => none

/-- `__threadpool_worker` around `__get_task`. -/
def threadpoolWorker (s : Pool n) : Action n → Option (Pool n)
  | .testQuit i =>
      if s.worker i = .testQuit then
        some (withWorker i (if s.quit = 0 then .popTask else .returned) s)
      else none
  | .startTask i =>
      match s.worker i with
      | .holding task => some (withWorker i (.running task) (execute task s))
      | _ => none
  | .finishTask i =>
      match s.worker i with
      | .running _ => some (withWorker i .testQuit s)
      | _ => none
  | a => getTask s a

/-- `pthread_cond_signal` wakes one enrolled thread if there is one. -/
def condSignal (woken : Option (Fin n)) (s : Pool n) : Option (Pool n) :=
  match woken with
  | some i =>
      if s.worker i = .waiting then some (withWorker i .relock s) else none
  | none => if ∀ i, s.worker i ≠ .waiting then some s else none

def threadPoolPost (s : Pool n) : Action n → Option (Pool n)
  | .post c func arg =>
      if s.client c = .idle then some (withClient c (.testing func arg) s)
      else none
  | .testPost c =>
      match s.client c with
      | .testing func arg =>
          some (withClient c
            (if s.quit = 1 then .idle else .allocating func arg) s)
      | _ => none
  | .allocate c granted =>
      match s.client c with
      | .allocating func arg =>
          if granted then
            some (withClient c (.adding ⟨s.created, func, arg⟩) (create s))
          else some (withClient c .idle s)
      | _ => none
  | .addTask c =>
      match s.client c with
      | .adding task => some (withClient c (.signalling task) (enqueue task s))
      | _ => none
  | .signal c woken =>
      match s.client c with
      | .signalling task =>
          (condSignal woken s).map
            (fun s' => withClient c .idle (accept task s'))
      | _ => none
  | _ => none

def threadPoolTerminate (s : Pool n) : Action n → Option (Pool n)
  | .terminate c =>
      if s.client c = .idle then some (withClient c .storingQuit s) else none
  | .storeQuit c =>
      if s.client c = .storingQuit then
        some (withClient c .storingBlock (withQuit 1 s))
      else none
  | .storeBlock c =>
      if s.client c = .storingBlock then
        some (withClient c .broadcasting (withBlock 0 s))
      else none
  | .broadcast c =>
      if s.client c = .broadcasting then
        some (withClient c .idle (wakeAll s))
      else none
  | _ => none

/-- The workers are joined in their order, and then the queue is destroyed. -/
def threadPoolWaitdone (s : Pool n) : Action n → Option (Pool n)
  | .waitdone =>
      if s.waitdone = .idle then some (withWaitdone (.joining 0) s) else none
  | .join =>
      match s.waitdone with
      | .joining count =>
          if h : count < n then
            if s.worker ⟨count, h⟩ = .returned then
              some (withWaitdone (.joining (count + 1)) s)
            else none
          else some (withWaitdone .draining s)
      | _ => none
  | .drain =>
      if s.waitdone = .draining then
        match s.queue with
        | [] => some (withWaitdone .destroying s)
        | task :: rest => some (discard task (take task rest s))
      else none
  | .destroy =>
      if s.waitdone = .destroying then some (withWaitdone .returned s)
      else none
  | _ => none

/-- There is no step on a pool that `thread_pool_waitdone` has released. -/
def poolStep (s : Pool n) (a : Action n) : Option (Pool n) :=
  if s.waitdone = .returned then none
  else
    match a with
    | .post .. | .testPost _ | .allocate .. | .addTask _ | .signal .. =>
        threadPoolPost s a
    | .terminate _ | .storeQuit _ | .storeBlock _ | .broadcast _ =>
        threadPoolTerminate s a
    | .waitdone | .join | .drain | .destroy => threadPoolWaitdone s a
    | a => threadpoolWorker s a

inductive Moves (s : Pool n) : Action n → Pool n → Prop
  | testQuit_go (i : Fin n) (h : s.worker i = .testQuit) (hquit : s.quit = 0) :
      Moves s (.testQuit i) (withWorker i .popTask s)
  | testQuit_leave (i : Fin n) (h : s.worker i = .testQuit)
      (hquit : s.quit ≠ 0) :
      Moves s (.testQuit i) (withWorker i .returned s)
  | popTask_empty (i : Fin n) (h : s.worker i = .popTask)
      (hqueue : s.queue = []) :
      Moves s (.popTask i) (withWorker i .lockMutex s)
  | popTask_task (i : Fin n) (task : Task) (rest : List Task)
      (h : s.worker i = .popTask) (hqueue : s.queue = task :: rest) :
      Moves s (.popTask i) (withWorker i (.holding task) (take task rest s))
  | lockMutex (i : Fin n) (h : s.worker i = .lockMutex)
      (hmutex : s.mutex = none) :
      Moves s (.lockMutex i) (withMutex (some i) (withWorker i .loadBlock s))
  | loadBlock_leave (i : Fin n) (h : s.worker i = .loadBlock)
      (hblock : s.block = 0) :
      Moves s (.loadBlock i) (withWorker i .returned s)
  | loadBlock_go (i : Fin n) (h : s.worker i = .loadBlock)
      (hblock : s.block ≠ 0) :
      Moves s (.loadBlock i) (withWorker i .condWait s)
  | condWait (i : Fin n) (h : s.worker i = .condWait)
      (hmutex : s.mutex = some i) :
      Moves s (.condWait i) (withMutex none (withWorker i .waiting s))
  | spurious (i : Fin n) (h : s.worker i = .waiting) :
      Moves s (.spurious i) (withWorker i .relock s)
  | relock (i : Fin n) (h : s.worker i = .relock) (hmutex : s.mutex = none) :
      Moves s (.relock i) (withMutex (some i) (withWorker i .unlockMutex s))
  | unlockMutex (i : Fin n) (h : s.worker i = .unlockMutex)
      (hmutex : s.mutex = some i) :
      Moves s (.unlockMutex i) (withMutex none (withWorker i .popTask s))
  | startTask (i : Fin n) (task : Task) (h : s.worker i = .holding task) :
      Moves s (.startTask i) (withWorker i (.running task) (execute task s))
  | finishTask (i : Fin n) (task : Task) (h : s.worker i = .running task) :
      Moves s (.finishTask i) (withWorker i .testQuit s)
  | post (c func arg : ℕ) (h : s.client c = .idle) :
      Moves s (.post c func arg) (withClient c (.testing func arg) s)
  | testPost_refuse (c func arg : ℕ) (h : s.client c = .testing func arg)
      (hquit : s.quit = 1) : Moves s (.testPost c) (withClient c .idle s)
  | testPost_go (c func arg : ℕ) (h : s.client c = .testing func arg)
      (hquit : s.quit ≠ 1) :
      Moves s (.testPost c) (withClient c (.allocating func arg) s)
  | allocate_refuse (c func arg : ℕ)
      (h : s.client c = .allocating func arg) :
      Moves s (.allocate c false) (withClient c .idle s)
  | allocate_grant (c func arg : ℕ)
      (h : s.client c = .allocating func arg) :
      Moves s (.allocate c true)
        (withClient c (.adding ⟨s.created, func, arg⟩) (create s))
  | addTask (c : ℕ) (task : Task) (h : s.client c = .adding task) :
      Moves s (.addTask c) (withClient c (.signalling task) (enqueue task s))
  | signal_heard (c : ℕ) (task : Task) (i : Fin n)
      (h : s.client c = .signalling task) (hwaiting : s.worker i = .waiting) :
      Moves s (.signal c (some i))
        (withClient c .idle (accept task (withWorker i .relock s)))
  | signal_unheard (c : ℕ) (task : Task) (h : s.client c = .signalling task)
      (hnone : ∀ i, s.worker i ≠ .waiting) :
      Moves s (.signal c none) (withClient c .idle (accept task s))
  | terminate (c : ℕ) (h : s.client c = .idle) :
      Moves s (.terminate c) (withClient c .storingQuit s)
  | storeQuit (c : ℕ) (h : s.client c = .storingQuit) :
      Moves s (.storeQuit c) (withClient c .storingBlock (withQuit 1 s))
  | storeBlock (c : ℕ) (h : s.client c = .storingBlock) :
      Moves s (.storeBlock c) (withClient c .broadcasting (withBlock 0 s))
  | broadcast (c : ℕ) (h : s.client c = .broadcasting) :
      Moves s (.broadcast c) (withClient c .idle (wakeAll s))
  | waitdone (h : s.waitdone = .idle) :
      Moves s .waitdone (withWaitdone (.joining 0) s)
  | join_worker (count : ℕ) (h : s.waitdone = .joining count) (hlt : count < n)
      (hreturned : s.worker ⟨count, hlt⟩ = .returned) :
      Moves s .join (withWaitdone (.joining (count + 1)) s)
  | join_all (count : ℕ) (h : s.waitdone = .joining count)
      (hge : n ≤ count) : Moves s .join (withWaitdone .draining s)
  | drain_task (task : Task) (rest : List Task) (h : s.waitdone = .draining)
      (hqueue : s.queue = task :: rest) :
      Moves s .drain (discard task (take task rest s))
  | drain_empty (h : s.waitdone = .draining) (hqueue : s.queue = []) :
      Moves s .drain (withWaitdone .destroying s)
  | destroy (h : s.waitdone = .destroying) :
      Moves s .destroy (withWaitdone .returned s)

variable {s s' : Pool n}

theorem moves_of_getTask {a : Action n} (h : getTask s a = some s') :
    Moves s a s' := by
  unfold getTask at h
  split at h
  next i =>
    split_ifs at h with hpc
    cases hqueue : s.queue with
    | nil =>
        simp only [hqueue, Option.some.injEq] at h
        subst h
        exact .popTask_empty i hpc hqueue
    | cons task rest =>
        simp only [hqueue, Option.some.injEq] at h
        subst h
        exact .popTask_task i task rest hpc hqueue
  next i =>
    split_ifs at h with hpc
    cases h
    exact .lockMutex i hpc.1 hpc.2
  next i =>
    split_ifs at h with hpc hblock
    · cases h
      exact .loadBlock_leave i hpc hblock
    · cases h
      exact .loadBlock_go i hpc hblock
  next i =>
    split_ifs at h with hpc
    cases h
    exact .condWait i hpc.1 hpc.2
  next i =>
    split_ifs at h with hpc
    cases h
    exact .spurious i hpc
  next i =>
    split_ifs at h with hpc
    cases h
    exact .relock i hpc.1 hpc.2
  next i =>
    split_ifs at h with hpc
    cases h
    exact .unlockMutex i hpc.1 hpc.2
  next => cases h

theorem moves_of_threadpoolWorker {a : Action n}
    (h : threadpoolWorker s a = some s') : Moves s a s' := by
  unfold threadpoolWorker at h
  split at h
  next i =>
    split_ifs at h with hpc hquit
    · cases h
      exact .testQuit_go i hpc hquit
    · cases h
      exact .testQuit_leave i hpc hquit
  next i =>
    split at h
    next task hpc =>
      cases h
      exact .startTask i task hpc
    next => cases h
  next i =>
    split at h
    next task hpc =>
      cases h
      exact .finishTask i task hpc
    next => cases h
  next => exact moves_of_getTask h

theorem moves_of_threadPoolPost {a : Action n}
    (h : threadPoolPost s a = some s') : Moves s a s' := by
  unfold threadPoolPost at h
  split at h
  next c func arg =>
    split_ifs at h with hpc
    cases h
    exact .post c func arg hpc
  next c =>
    split at h
    next func arg hpc =>
      split_ifs at h with hquit
      · cases h
        exact .testPost_refuse c func arg hpc hquit
      · cases h
        exact .testPost_go c func arg hpc hquit
    next => cases h
  next c granted =>
    split at h
    next func arg hpc =>
      cases granted with
      | false =>
          cases h
          exact .allocate_refuse c func arg hpc
      | true =>
          cases h
          exact .allocate_grant c func arg hpc
    next => cases h
  next c =>
    split at h
    next task hpc =>
      cases h
      exact .addTask c task hpc
    next => cases h
  next c woken =>
    split at h
    next task hpc =>
      unfold condSignal at h
      cases woken with
      | some i =>
          simp only at h
          split_ifs at h with hwaiting
          · cases h
            exact .signal_heard c task i hpc hwaiting
          · cases h
      | none =>
          simp only at h
          split_ifs at h with hnone
          · cases h
            exact .signal_unheard c task hpc hnone
          · cases h
    next => cases h
  next => cases h

theorem moves_of_threadPoolTerminate {a : Action n}
    (h : threadPoolTerminate s a = some s') : Moves s a s' := by
  unfold threadPoolTerminate at h
  split at h
  next c =>
    split_ifs at h with hpc
    cases h
    exact .terminate c hpc
  next c =>
    split_ifs at h with hpc
    cases h
    exact .storeQuit c hpc
  next c =>
    split_ifs at h with hpc
    cases h
    exact .storeBlock c hpc
  next c =>
    split_ifs at h with hpc
    cases h
    exact .broadcast c hpc
  next => cases h

theorem moves_of_threadPoolWaitdone {a : Action n}
    (h : threadPoolWaitdone s a = some s') : Moves s a s' := by
  unfold threadPoolWaitdone at h
  split at h
  next =>
    split_ifs at h with hpc
    cases h
    exact .waitdone hpc
  next =>
    split at h
    next count hpc =>
      split_ifs at h with hlt hreturned
      · cases h
        exact .join_worker count hpc hlt hreturned
      · cases h
        exact .join_all count hpc (not_lt.mp hlt)
    next => cases h
  next =>
    split_ifs at h with hpc
    cases hqueue : s.queue with
    | nil =>
        simp only [hqueue, Option.some.injEq] at h
        subst h
        exact .drain_empty hpc hqueue
    | cons task rest =>
        simp only [hqueue, Option.some.injEq] at h
        subst h
        exact .drain_task task rest hpc hqueue
  next =>
    split_ifs at h with hpc
    cases h
    exact .destroy hpc
  next => cases h

theorem moves_of_poolStep {a : Action n} (h : poolStep s a = some s') :
    Moves s a s' := by
  unfold poolStep at h
  split_ifs at h
  split at h
  all_goals first
    | exact moves_of_threadPoolPost h
    | exact moves_of_threadPoolTerminate h
    | exact moves_of_threadPoolWaitdone h
    | exact moves_of_threadpoolWorker h

end Steps

theorem reach_invariant {n : ℕ} {guard : Pool n → Action n → Prop}
    {Inv : Pool n → Prop} {s : Pool n}
    (h : Reach poolStep guard (Pool.initial n) s)
    (hstart : Inv (Pool.initial n))
    (hmoves : ∀ s a s', Inv s → guard s a → Moves s a s' → Inv s') : Inv s := by
  apply h.invariant hstart
  intro s a s' hinv hguard hstep
  exact hmoves s a s' hinv hguard (moves_of_poolStep hstep)

/-! ## Joined workers -/

def WaitPc.joined (n : ℕ) : WaitPc → ℕ
  | .idle => 0
  | .joining count => count
  | _ => n

def Joined {n : ℕ} (s : Pool n) : Prop :=
  ∀ i : Fin n, i.val < s.waitdone.joined n → s.worker i = .returned

section Joining

variable {n : ℕ} {s s' : Pool n} {a : Action n}

theorem Joined.worker (h : Joined s) {i : Fin n} {pc : WorkerPc}
    (hpc : s.worker i ≠ .returned) : Joined (withWorker i pc s) := by
  intro j hj
  have hreturned := h j hj
  have hne : j ≠ i := by
    intro heq
    subst heq
    exact hpc hreturned
  simpa [hne] using hreturned

theorem Joined.wakeAll (h : Joined s) : Joined (wakeAll s) := by
  intro i hi
  simp only [wakeAll_worker, h i hi, wake]

theorem joined_moves (h : Joined s) (hmove : Moves s a s') : Joined s' := by
  cases hmove with
  | testQuit_go i hpc hquit => exact h.worker (by simp [hpc])
  | testQuit_leave i hpc hquit => exact h.worker (by simp [hpc])
  | popTask_empty i hpc hqueue => exact h.worker (by simp [hpc])
  | popTask_task i task rest hpc hqueue =>
      exact Joined.worker (s := take task rest s) h (by simp [hpc])
  | lockMutex i hpc hmutex => exact h.worker (by simp [hpc])
  | loadBlock_leave i hpc hblock => exact h.worker (by simp [hpc])
  | loadBlock_go i hpc hblock => exact h.worker (by simp [hpc])
  | condWait i hpc hmutex => exact h.worker (by simp [hpc])
  | spurious i hpc => exact h.worker (by simp [hpc])
  | relock i hpc hmutex => exact h.worker (by simp [hpc])
  | unlockMutex i hpc hmutex => exact h.worker (by simp [hpc])
  | startTask i task hpc =>
      exact Joined.worker (s := execute task s) h (by simp [hpc])
  | finishTask i task hpc => exact h.worker (by simp [hpc])
  | signal_heard c task i hpc hwaiting => exact h.worker (by simp [hwaiting])
  | broadcast c hpc => exact h.wakeAll
  | join_worker count hpc hlt hreturned =>
      intro i hi
      have hle : i.val ≤ count := Nat.lt_succ_iff.mp hi
      rcases Nat.lt_or_eq_of_le hle with hlt' | heq
      · exact h i (by rw [hpc]; exact hlt')
      · have hi : i = ⟨count, hlt⟩ := Fin.ext heq
        rw [hi]
        exact hreturned
  | join_all count hpc hge =>
      intro i hi
      exact h i (by rw [hpc]; exact i.isLt.trans_le hge)
  | waitdone hpc => exact fun i hi => absurd hi (Nat.not_lt_zero _)
  | drain_task task rest hpc hqueue => exact h
  | drain_empty hpc hqueue => exact fun i hi => h i (by rw [hpc]; exact hi)
  | destroy hpc => exact fun i hi => h i (by rw [hpc]; exact hi)
  | _ => exact h

theorem reach_joined {guard : Pool n → Action n → Prop}
    (hrun : Reach poolStep guard (Pool.initial n) s) : Joined s :=
  reach_invariant hrun (fun _ hi => absurd hi (Nat.not_lt_zero _))
    (fun _ _ _ h _ hmove => joined_moves h hmove)

end Joining

end CAdvanced
