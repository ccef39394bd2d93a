import CAdvanced.FallibleExecution
import CAdvanced.PoolShutdown
import CAdvanced.PoolSignals

/-!
# `thread_pool_create` and its rollback

A ledger holds what one call of `thread_pool_create` has acquired or
initialised and not yet given back; to give back what is not held is a fault,
and so is to destroy the mutex while a thread owns it.  The environment decides
which of the steps succeed, and which steps the threads take that were started:
they run `__threadpool_worker` from their `pthread_create` on.
-/

namespace CAdvanced

open Fallible
open Pool

/-- What the creation of a pool acquires, and the blocks of queued tasks. -/
inductive Resource
  | poolBlock
  | queueBlock
  | mutex
  | cond
  | spinlock
  | attr
  | threadsArray
  | thread (i : ℕ)
  | task (serial : ℕ)
  deriving DecidableEq

structure Environment (n : ℕ) where
  /-- The `malloc`, the initialisation or the `pthread_create` succeeds. -/
  grants : Resource → Bool
  /-- The steps of the workers between two steps of the creating thread. -/
  turns : ℕ → List (Action n)

/-- One call of `thread_pool_create` with the number of threads `n`. -/
structure Creation (n : ℕ) where
  held : List Resource
  pool : Pool n
  threadCount : ℕ
  /-- The threads that `pthread_create` has started are those below. -/
  started : ℕ
  /-- How often the started threads had their turns. -/
  slot : ℕ

namespace Creation

variable {n : ℕ}

@[simps] def withHeld (held : List Resource) (s : Creation n) : Creation n :=
  { s with held := held }

@[simp] theorem withHeld_withHeld (held held' : List Resource)
    (s : Creation n) : withHeld held' (withHeld held s) = withHeld held' s :=
  rfl

@[simps] def onPool (f : Pool n → Pool n) (s : Creation n) : Creation n :=
  { s with pool := f s.pool }

@[simps] def withThreadCount (count : ℕ) (s : Creation n) : Creation n :=
  { s with threadCount := count }

@[simps] def withStarted (count : ℕ) (s : Creation n) : Creation n :=
  { s with started := count }

end Creation

open Creation

section Code

variable {n : ℕ}

def acquire (env : Environment n) (r : Resource) :
    Exec (Creation n) Bool := do
  if env.grants r then
    modify (fun s => withHeld (r :: s.held) s)
    return true
  else return false

def release (r : Resource) : Exec (Creation n) Unit := do
  if r ∈ (← get).held then modify (fun s => withHeld (s.held.erase r) s)
  else throw .badAddress

/-! ## The started threads -/

/-- A worker that is not started, or cannot take the step, stays. -/
def workerTurn (started : ℕ) (p : Pool n) (a : Action n) : Pool n :=
  match a.byWorker with
  | some i => if i.val < started then (threadpoolWorker p a).getD p else p
  | none => p

def workersRun (started : ℕ) (turns : List (Action n)) (p : Pool n) : Pool n :=
  turns.foldl (workerTurn started) p

/-- The started threads run between two steps of the creating one. -/
@[simps] def Creation.afterTurns (env : Environment n) (s : Creation n) :
    Creation n :=
  { s with
    pool := workersRun s.started (env.turns s.slot) s.pool
    slot := s.slot + 1 }

def letRun (env : Environment n) : Exec (Creation n) Unit :=
  modify (afterTurns env)

/-! ## The task queue -/

/-- How `__taskqueue_create` leaves the members of a new queue. -/
@[simps] def initQueue (p : Pool n) : Pool n :=
  { p with
    queue := []
    block := 1 }

/-- The answer says whether there is a queue. -/
def taskqueueCreate (env : Environment n) : Exec (Creation n) Bool := do
  if ← acquire env .queueBlock then
    if ← acquire env .mutex then
      modify (onPool (withMutex none))
      if ← acquire env .cond then
        if ← acquire env .spinlock then
          modify (onPool initQueue)
          return true
        else
          -- the lock that could not be initialised
          release .spinlock
        release .cond
      release .mutex
    release .queueBlock
  return false

def drainStep (_ : Unit) : Exec (Creation n) (Unit ⊕ Unit) := do
  match (← get).pool.queue with
  | [] => return .inr ()
  | task :: rest =>
      modify (onPool (take task rest))
      release (.task task.serial)
      return .inl ()

/-- `pthread_mutex_destroy` of a mutex that a thread owns is undefined. -/
def destroyMutex : Exec (Creation n) Unit := do
  if (← get).pool.mutex = none then release .mutex
  else throw .badAddress

def taskqueueDestroy : Exec (Creation n) Unit := do
  iterate drainStep ((← get).pool.queue.length + 1) ()
  release .spinlock
  release .cond
  destroyMutex
  release .queueBlock

/-! ## The threads -/

def HasReturned (i : ℕ) (p : Pool n) : Prop :=
  ∀ j : Fin n, j.val = i → p.worker j = .returned

instance (i : ℕ) (p : Pool n) : Decidable (HasReturned i p) :=
  inferInstanceAs (Decidable (∀ _, _))

def joinStep (env : Environment n) (i : ℕ) (_ : Unit) :
    Exec (Creation n) (Unit ⊕ Unit) := do
  if HasReturned i (← get).pool then
    release (.thread i)
    return .inr ()
  else
    letRun env
    return .inl ()

/-- `pthread_join` waits for as long as `fuel` lets it. -/
def joinThread (env : Environment n) (fuel i : ℕ) : Exec (Creation n) Unit :=
  iterate (joinStep env i) fuel ()

def threadsTerminate (env : Environment n) (fuel : ℕ) :
    Exec (Creation n) Unit := do
  modify (onPool (withQuit 1))
  letRun env
  modify (onPool (withBlock 0))
  letRun env
  modify (onPool wakeAll)
  let _ ← runAll (joinThread env fuel) (List.range (← get).threadCount)

/-- The loop of `__threads_create`: the number of the thread it stops at. -/
def startThreads (env : Environment n) : ℕ → ℕ → Exec (Creation n) ℕ
  | 0, i => return i
  | remaining + 1, i => do
      if ← acquire env (.thread i) then
        modify (withStarted (i + 1))
        letRun env
        startThreads env remaining (i + 1)
      else return i

def threadsCreate (env : Environment n) (fuel : ℕ) :
    Exec (Creation n) ℤ := do
  if ← acquire env .attr then
    if ← acquire env .threadsArray then
      let i ← startThreads env n 0
      modify (withThreadCount i)
      release .attr
      if i = n then return 0
      threadsTerminate env fuel
      release .threadsArray
  return -1

/-- The answer says whether there is a pool. -/
def threadPoolCreate (env : Environment n) (fuel : ℕ) :
    Exec (Creation n) Bool := do
  if ← acquire env .poolBlock then
    if ← taskqueueCreate env then
      modify (onPool (withQuit 0))
      if (← threadsCreate env fuel) = 0 then return true
      taskqueueDestroy
    release .poolBlock
  return false

/-! ## What a failure leaves -/

/-- The steps that may fail, in their order. -/
def creationSteps (n : ℕ) : List Resource :=
  [.poolBlock, .queueBlock, .mutex, .cond, .spinlock, .attr, .threadsArray]
    ++ (List.range n).map .thread

def firstRefused (env : Environment n) : Option Resource :=
  (creationSteps n).find? (fun r => !env.grants r)

/-- Nothing is held before the call, and no thread runs yet. -/
structure Unstarted (s : Creation n) : Prop where
  held : s.held = []
  started : s.started = 0
  slot : s.slot = 0
  worker : ∀ i, s.pool.worker i = .testQuit

/-- Every worker gets to its test of `quit` again and again. -/
def Fair (env : Environment n) : Prop :=
  ∀ i t, ∃ t' ≥ t, .testQuit i ∈ env.turns t'

/-- There is no pool, and everything was given back. -/
def RollsBack (env : Environment n) (s : Creation n) : Prop :=
  ∃ fuel, Returns (threadPoolCreate env fuel) s
    (fun created s' => created = false ∧ s'.held = [])

/-- No started worker loads `quit` before the `k`-th `pthread_create` has
failed. -/
def NoneEnters (env : Environment n) (k : ℕ) : Prop :=
  ∀ t < k, ∀ i : Fin n, .testQuit i ∈ env.turns t → t < i.val

/-- The step has a cleanup that matches it. -/
def CleanlyRefused (env : Environment n) : Resource → Prop
  | .spinlock => False
  | .threadsArray => False
  | .thread k => NoneEnters env k
  | _ => True

end Code

/-! ## The ledger -/

section Ledger

variable {n : ℕ} {env : Environment n} {s : Creation n} {r : Resource}
  {rest : List Resource}

theorem returns_acquire_granted (h : env.grants r = true)
    (Q : Bool → Creation n → Prop) :
    Returns (acquire env r) s Q ↔ Q true (withHeld (r :: s.held) s) := by
  simp [acquire, h]

theorem returns_acquire_refused (h : env.grants r = false)
    (Q : Bool → Creation n → Prop) :
    Returns (acquire env r) s Q ↔ Q false s := by
  simp [acquire, h]

theorem returns_release (Q : Unit → Creation n → Prop) :
    Returns (release r) s Q ↔
      r ∈ s.held ∧ Q () (withHeld (s.held.erase r) s) := by
  unfold release
  rw [returns_bind, returns_get]
  by_cases hheld : r ∈ s.held
  · simp [hheld]
  · simp [hheld]

theorem returns_release_of_perm (hheld : s.held.Perm (r :: rest))
    {Q : Unit → Creation n → Prop}
    (hQ : ∀ held, held.Perm rest → Q () (withHeld held s)) :
    Returns (release r) s Q := by
  rw [returns_release]
  refine ⟨hheld.mem_iff.mpr List.mem_cons_self, hQ _ ?_⟩
  have herase := hheld.erase r
  rw [List.erase_cons_head] at herase
  exact herase

theorem returns_destroyMutex (Q : Unit → Creation n → Prop) :
    Returns destroyMutex s Q ↔
      s.pool.mutex = none ∧ Returns (release .mutex) s Q := by
  unfold destroyMutex
  rw [returns_bind, returns_get]
  by_cases hfree : s.pool.mutex = none
  · simp [hfree]
  · simp [hfree]

theorem preserves_release {μ : Type} {f : Creation n → μ}
    (hf : ∀ held s, f (withHeld held s) = f s) :
    Preserves f (release r) := by
  unfold release
  apply preserves_bind preserves_get
  intro s
  exact preserves_ite (preserves_modify (fun _ => hf _ _)) (preserves_throw _)

/-! ## The queue -/

/-- Without the block, the mutex or the condition there is no queue. -/
theorem returns_taskqueueCreate_refused
    (hrefused : env.grants .queueBlock = false ∨ env.grants .mutex = false ∨
      env.grants .cond = false) :
    Returns (taskqueueCreate env) s
      (fun created s' => created = false ∧ s'.held = s.held) := by
  unfold taskqueueCreate
  cases hqueue : env.grants .queueBlock with
  | false => simp [returns_acquire_refused hqueue]
  | true =>
      cases hmutex : env.grants .mutex with
      | false =>
          simp [returns_acquire_granted hqueue,
            returns_acquire_refused hmutex, returns_release]
      | true =>
          have hcond : env.grants .cond = false := by
            simpa [hqueue, hmutex] using hrefused
          simp [returns_acquire_granted hqueue,
            returns_acquire_granted hmutex, returns_acquire_refused hcond,
            returns_release]

/-- A lock that could not be initialised is destroyed. -/
theorem not_returns_taskqueueCreate (hqueue : env.grants .queueBlock = true)
    (hmutex : env.grants .mutex = true) (hcond : env.grants .cond = true)
    (hspin : env.grants .spinlock = false)
    (hheld : .spinlock ∉ s.held) (Q : Bool → Creation n → Prop) :
    ¬ Returns (taskqueueCreate env) s Q := by
  simp [taskqueueCreate, returns_acquire_granted hqueue,
    returns_acquire_granted hmutex, returns_acquire_granted hcond,
    returns_acquire_refused hspin, returns_release, hheld]

/-- The parts of a queue, what was acquired last first. -/
def queueParts : List Resource := [.spinlock, .cond, .mutex, .queueBlock]

theorem returns_taskqueueCreate_granted
    (hgranted : ∀ r ∈ queueParts, env.grants r = true)
    (Q : Bool → Creation n → Prop) :
    Returns (taskqueueCreate env) s Q ↔
      Q true (onPool (initQueue ∘ withMutex none)
        (withHeld (queueParts ++ s.held) s)) := by
  have hspin := hgranted .spinlock (by decide)
  have hcond := hgranted .cond (by decide)
  have hmutex := hgranted .mutex (by decide)
  have hqueue := hgranted .queueBlock (by decide)
  simp only [taskqueueCreate, returns_bind, returns_acquire_granted hqueue,
    returns_acquire_granted hmutex, returns_acquire_granted hcond,
    returns_acquire_granted hspin, reduceIte, returns_modify, returns_pure]
  rfl

theorem returns_drain (hqueue : s.pool.queue = [])
    (Q : Unit → Creation n → Prop) :
    Returns (iterate drainStep (s.pool.queue.length + 1) ()) s Q ↔
      Q () s := by
  simp [iterate, drainStep, hqueue]

theorem returns_taskqueueDestroy (hqueue : s.pool.queue = [])
    (hmutex : s.pool.mutex = none)
    (hheld : s.held.Perm (queueParts ++ rest)) :
    Returns taskqueueDestroy s (fun _ s' => s'.held.Perm rest) := by
  unfold taskqueueDestroy
  rw [returns_bind, returns_get, returns_bind, returns_drain hqueue,
    returns_bind]
  apply returns_release_of_perm hheld
  intro held₁ hheld₁
  rw [returns_bind]
  apply returns_release_of_perm hheld₁
  intro held₂ hheld₂
  rw [returns_bind, returns_destroyMutex]
  refine ⟨hmutex, ?_⟩
  apply returns_release_of_perm hheld₂
  intro held₃ hheld₃
  apply returns_release_of_perm hheld₃
  intro held₄ hheld₄
  exact hheld₄

/-- A mutex that a thread owns is not destroyed. -/
theorem not_returns_taskqueueDestroy (hqueue : s.pool.queue = [])
    (hmutex : s.pool.mutex ≠ none) (Q : Unit → Creation n → Prop) :
    ¬ Returns taskqueueDestroy s Q := by
  unfold taskqueueDestroy
  rw [returns_bind, returns_get, returns_bind, returns_drain hqueue]
  simp only [returns_bind, returns_release, returns_destroyMutex, withHeld_pool]
  rintro ⟨-, -, hfree, -⟩
  exact hmutex hfree

end Ledger

end CAdvanced
