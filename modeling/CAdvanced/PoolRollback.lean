import CAdvanced.PoolTurns

/-!
# The rollback of `thread_pool_create`

A started worker that has loaded `quit` before it is stored breaks the
rollback: its join does not end, or the mutex is destroyed while the worker
that returned owns it.  The spinlock and the attributes have cleanups of their
own that do not match.
-/

namespace CAdvanced

open Fallible
open Pool
open Creation

variable {n : ℕ}

/-! ## The threads -/

section Threads

variable {env : Environment n} {s : Creation n} {p : Pool n} {k : ℕ}
  {base : List Resource}

def threadsFrom (i k : ℕ) : List Resource :=
  (List.range' i (k - i)).map .thread

theorem threadsFrom_of_lt {i k : ℕ} (hlt : i < k) :
    threadsFrom i k = .thread i :: threadsFrom (i + 1) k := by
  unfold threadsFrom
  have hlength : k - i = (k - (i + 1)) + 1 := by omega
  rw [hlength, List.range'_succ]
  rfl

theorem threadsFrom_succ {k : ℕ} :
    (threadsFrom 0 (k + 1)).Perm (.thread k :: threadsFrom 0 k) := by
  unfold threadsFrom
  rw [Nat.sub_zero, Nat.sub_zero, List.range'_1_concat, List.map_append,
    Nat.zero_add]
  exact List.perm_append_singleton _ _

/-- The pool when this many threads were started and had their turns. -/
def startedPool (env : Environment n) (p : Pool n) : ℕ → Pool n
  | 0 => p
  | i + 1 => workersRun (i + 1) (env.turns i) (startedPool env p i)

structure StartedUpTo (env : Environment n) (p : Pool n)
    (base : List Resource) (i : ℕ) (s : Creation n) : Prop where
  held : s.held.Perm (threadsFrom 0 i ++ base)
  pool : s.pool = startedPool env p i
  started : s.started = i
  slot : s.slot = i

theorem StartedUpTo.next {i : ℕ} (h : StartedUpTo env p base i s) :
    StartedUpTo env p base (i + 1) (afterTurns env
      (withStarted (i + 1) (withHeld (.thread i :: s.held) s))) := by
  refine ⟨?_, ?_, rfl, ?_⟩
  · exact (h.held.cons _).trans (threadsFrom_succ.append_right base).symm
  · simp [startedPool, h.pool, h.slot]
  · simp [h.slot]

/-- The threads are started up to the first one that is refused. -/
theorem returns_startThreads {i m : ℕ} (hle : i ≤ k)
    (hstarted : ∀ j < k, env.grants (.thread j) = true)
    (hstop : k = i + m ∨ k < i + m ∧ env.grants (.thread k) = false)
    (h : StartedUpTo env p base i s) :
    Returns (startThreads env m i) s (fun count s' =>
      count = k ∧ s'.threadCount = s.threadCount ∧
        StartedUpTo env p base k s') := by
  induction m generalizing i s with
  | zero =>
      have heq : i = k := by omega
      subst heq
      simp only [startThreads, returns_pure]
      exact ⟨trivial, trivial, h⟩
  | succ m ih =>
      unfold startThreads
      rw [returns_bind]
      by_cases heq : i = k
      · subst heq
        have hrefused : env.grants (.thread i) = false := by
          rcases hstop with hend | hrefused
          · omega
          · exact hrefused.2
        rw [returns_acquire_refused hrefused]
        simp only [Bool.false_eq_true, reduceIte, returns_pure]
        exact ⟨trivial, trivial, h⟩
      · rw [returns_acquire_granted (hstarted i (by omega)), if_pos rfl]
        simp only [letRun, returns_bind, returns_modify]
        have hstop' : k = i + 1 + m ∨
            k < i + 1 + m ∧ env.grants (.thread k) = false := by
          rcases hstop with hend | ⟨hlt, hrefused⟩
          · left
            omega
          · right
            exact ⟨by omega, hrefused⟩
        exact ih (by omega) hstop' h.next

/-- The state in which `__threads_terminate` begins to join. -/
def told (env : Environment n) (s : Creation n) : Creation n :=
  onPool wakeAll (afterTurns env (onPool (withBlock 0)
    (afterTurns env (onPool (withQuit 1) s))))

theorem returns_threadsTerminate_iff {fuel : ℕ}
    (Q : Unit → Creation n → Prop) :
    Returns (threadsTerminate env fuel) s Q ↔
      Returns (runAll (joinThread env fuel)
          (List.range' 0 (s.threadCount - 0))) (told env s)
        (fun _ s' => Q () s') := by
  unfold threadsTerminate letRun
  simp only [returns_bind, returns_modify, returns_get, returns_pure,
    List.range_eq_range', Nat.sub_zero]
  rfl

/-- `pthread_create` fails for the thread with this number: those before it
are told to end and waited for. -/
theorem threadsCreate_joins (hattr : env.grants .attr = true)
    (harray : env.grants .threadsArray = true)
    (hstarted : ∀ j < k, env.grants (.thread j) = true) (hlt : k < n)
    (hrefused : env.grants (.thread k) = false)
    (hslot : s.slot = 0) (hnone : s.started = 0) :
    ∃ s₁, StartedUpTo env s.pool (.threadsArray :: s.held) k s₁ ∧
      ∀ fuel Q, Returns (threadsCreate env fuel) s Q ↔
        Returns (runAll (joinThread env fuel) (List.range' 0 (k - 0)))
          (told env s₁) (fun _ s₂ => Returns (release .threadsArray) s₂
            (fun _ s₃ => Q (-1) s₃)) := by
  have hloop : Returns (startThreads env n 0)
      (withHeld (.threadsArray :: .attr :: s.held) s) (fun count s' =>
        count = k ∧ s'.threadCount = s.threadCount ∧
          StartedUpTo env s.pool (.threadsArray :: .attr :: s.held) k s') :=
    returns_startThreads (Nat.zero_le k) hstarted
      (Or.inr ⟨by omega, hrefused⟩) ⟨List.Perm.refl _, rfl, hnone, hslot⟩
  obtain ⟨count, s', hrun, hcount, -, h⟩ := hloop
  subst hcount
  have hsplit : s'.held.Perm
      (.attr :: (threadsFrom 0 count ++ .threadsArray :: s.held)) :=
    h.held.trans (((List.Perm.swap _ _ _).append_left _).trans
      List.perm_middle)
  have hattrHeld : Resource.attr ∈ s'.held :=
    hsplit.mem_iff.mpr List.mem_cons_self
  have hne : ¬ count = n := by omega
  refine ⟨withHeld (s'.held.erase .attr) (withThreadCount count s'),
    ⟨?_, h.pool, h.started, h.slot⟩, ?_⟩
  · have herase := hsplit.erase .attr
    rw [List.erase_cons_head] at herase
    exact herase
  · intro fuel Q
    unfold threadsCreate
    rw [returns_bind, returns_acquire_granted hattr, if_pos rfl, returns_bind,
      returns_acquire_granted harray, if_pos rfl, withHeld_held,
      withHeld_withHeld, Returns.bind_iff ⟨_, _, hrun, rfl, rfl⟩]
    simp only [returns_bind, returns_modify, returns_release, hne, reduceIte,
      returns_threadsTerminate_iff, returns_pure]
    exact and_iff_right hattrHeld

/-! ### A worker that is inside -/

theorem hasReturned_moves (i : ℕ) : KeptByWorkers (@HasReturned n i) := by
  intro p a j p' h hj hmove l hl
  exact gone_moves l p a j p' (h l hl) hj hmove

theorem yields_joinThread {Inv : Pool n → Prop} (hkept : KeptByWorkers Inv)
    {fuel i : ℕ} (h : Inv s.pool) :
    Yields (joinThread env fuel i) s
      (fun _ s' => Inv s'.pool ∧ HasReturned i s'.pool) := by
  refine yields_iterate (fun _ t => Inv t.pool) ?_ h
  intro _ t ht
  unfold joinStep
  apply yields_bind
  apply yields_get
  by_cases hreturned : HasReturned i t.pool
  · rw [if_pos hreturned]
    apply yields_bind
    refine (preserves_release (fun _ _ => withHeld_pool _ _) t).mono ?_
    intro _ t' hpool
    exact yields_pure (by rw [hpool]; exact ⟨ht, hreturned⟩)
  · rw [if_neg hreturned]
    apply yields_bind
    apply yields_modify
    exact yields_pure (hkept.run ht)

theorem yields_joinThreads {Inv : Pool n → Prop} (hkept : KeptByWorkers Inv)
    {fuel : ℕ} {indices : List ℕ} (h : Inv s.pool) :
    Yields (runAll (joinThread env fuel) indices) s (fun _ s' =>
      Inv s'.pool ∧ ∀ i ∈ indices, HasReturned i s'.pool) := by
  induction indices generalizing Inv s with
  | nil => exact yields_pure ⟨h, fun i hi => absurd hi List.not_mem_nil⟩
  | cons i rest ih =>
      unfold runAll
      apply yields_bind
      refine (yields_joinThread hkept h).mono ?_
      intro _ s₁ hs₁
      have hboth : KeptByWorkers (fun p => Inv p ∧ HasReturned i p) :=
        fun p a j p' hp hj hmove => ⟨hkept p a j p' hp.1 hj hmove,
          hasReturned_moves i p a j p' hp.2 hj hmove⟩
      apply yields_bind
      refine (ih hboth hs₁).mono ?_
      intro _ s₂ hs₂
      apply yields_pure
      refine ⟨hs₂.1.1, ?_⟩
      intro l hl
      rcases List.mem_cons.mp hl with heq | hmem
      · rw [heq]
        exact hs₂.1.2
      · exact hs₂.2 l hmem

theorem looking_wake (pc : WorkerPc) : (wake pc).looking = pc.looking := by
  cases pc <;> rfl

theorem Entered.wakeAll {j : Fin n} (h : Entered j p) :
    Entered j (wakeAll p) := by
  refine ⟨⟨h.queue, ?_⟩, ?_⟩
  · intro i hi
    have hinside : (p.worker i).insideMutex = true := by
      rw [wakeAll_worker] at hi
      cases hpc : p.worker i <;> simp_all [wake, WorkerPc.insideMutex]
    exact h.owner i hinside
  · rw [wakeAll_worker, looking_wake, wakeAll_mutex]
    refine h.inside.imp_right (fun hgone => ⟨?_, hgone.2⟩)
    rw [hgone.1]
    rfl

theorem entered_told {j : Fin n} (h : Entered j s.pool) :
    Entered j (told env s).pool := by
  have hquit : Entered j (withQuit 1 s.pool) :=
    ⟨⟨h.queue, h.owner⟩, h.inside⟩
  have hran : Entered j (workersRun s.started (env.turns s.slot)
      (withQuit 1 s.pool)) := (entered_moves j).run hquit
  have hblock : Entered j (withBlock 0 (workersRun s.started
      (env.turns s.slot) (withQuit 1 s.pool))) :=
    ⟨⟨hran.queue, hran.owner⟩, hran.inside⟩
  exact ((entered_moves j).run hblock).wakeAll

/-- `quit` is loaded too early: the worker is inside when the others are
started. -/
theorem entered_startedPool {t : ℕ} {i : Fin n} (hlt : t < k)
    (hle : i.val ≤ t) (hload : .testQuit i ∈ env.turns t)
    (h : Poised i p) : Entered i (startedPool env p k) := by
  have hpoised : ∀ m, Poised i (startedPool env p m) := by
    intro m
    induction m with
    | zero => exact h
    | succ m ih => exact (poised_moves i).run ih
  induction k with
  | zero => omega
  | succ k ih =>
      rcases Nat.lt_succ_iff_lt_or_eq.mp hlt with hlt' | heq
      · exact (entered_moves i).run (ih hlt')
      · subst heq
        exact entered_workersRun (hpoised t) (by omega) hload

/-! ### Workers that have not tested `quit` -/

theorem startedPool_idle (hworker : ∀ i, p.worker i = .testQuit)
    (hnone : NoneEnters env k) : startedPool env p k = p := by
  induction k with
  | zero => rfl
  | succ k ih =>
      have hbefore : startedPool env p k = p :=
        ih (fun t ht => hnone t (Nat.lt_succ_of_lt ht))
      rw [startedPool, hbefore]
      exact workersRun_idle hworker (hnone k (Nat.lt_succ_self k))

/-- The workers leave, and each has left when its load was due. -/
structure Departing (due : Fin n → ℕ) (k : ℕ) (s : Creation n) : Prop where
  leaving : Leaving s.pool
  started : s.started = k
  gone : ∀ j : Fin n, j.val < k → due j < s.slot →
    s.pool.worker j = .returned

section Departures

variable {due : Fin n → ℕ}

theorem Departing.turns (hdue : ∀ j, .testQuit j ∈ env.turns (due j))
    (h : Departing due k s) : Departing due k (afterTurns env s) := by
  refine ⟨leaving_moves.run h.leaving, h.started, ?_⟩
  intro j hlt hle
  rw [afterTurns_pool]
  rcases Nat.lt_succ_iff_lt_or_eq.mp hle with hbefore | hnow
  · exact (gone_moves j).run (h.gone j hlt hbefore)
  · have hmem := hdue j
    rw [hnow] at hmem
    exact returned_workersRun h.leaving (h.started ▸ hlt) hmem

theorem returns_joinThread {j : Fin n} {fuel : ℕ} {rest : List Resource}
    (hdue : ∀ j, .testQuit j ∈ env.turns (due j)) (hlt : j.val < k)
    (hfuel : due j + 1 < fuel) (h : Departing due k s)
    (hheld : s.held.Perm (.thread j.val :: rest)) :
    Returns (joinThread env fuel j.val) s
      (fun _ s' => Departing due k s' ∧ s'.held.Perm rest) := by
  apply iterate_returns (k := due j + 1 - s.slot)
    (fun m (_ : Unit) t => m = due j + 1 - t.slot ∧ Departing due k t ∧
      t.held.Perm (.thread j.val :: rest)) _ ⟨rfl, h, hheld⟩ (by omega)
  rintro m _ t ⟨rfl, ht, hperm⟩
  unfold joinStep
  rw [returns_bind, returns_get]
  by_cases hreturned : HasReturned j.val t.pool
  · rw [if_pos hreturned, returns_bind]
    apply returns_release_of_perm hperm
    intro held hrest
    rw [returns_pure]
    exact ⟨⟨ht.leaving, ht.started, ht.gone⟩, hrest⟩
  · rw [if_neg hreturned]
    have hpending : t.slot ≤ due j := by
      by_contra hpast
      apply hreturned
      intro l hl
      rw [Fin.ext hl]
      exact ht.gone j hlt (by omega)
    simp only [letRun, returns_bind, returns_modify, returns_pure]
    exact ⟨due j + 1 - (t.slot + 1), by omega, rfl, ht.turns hdue, hperm⟩

theorem returns_joinThreads {i fuel : ℕ}
    (hdue : ∀ j, .testQuit j ∈ env.turns (due j)) (hk : k ≤ n)
    (hfuel : ∀ j, due j + 1 < fuel) (hle : i ≤ k) (h : Departing due k s)
    (hheld : s.held.Perm (threadsFrom i k ++ base)) :
    Returns (runAll (joinThread env fuel) (List.range' i (k - i))) s
      (fun _ s' => Departing due k s' ∧ s'.held.Perm base) := by
  induction hm : k - i generalizing i s with
  | zero =>
      simp only [threadsFrom, hm, List.range'_zero, List.map_nil,
        List.nil_append] at hheld
      simp only [List.range'_zero, runAll, returns_pure]
      exact ⟨h, hheld⟩
  | succ m ih =>
      have hlt : i < k := by omega
      rw [threadsFrom_of_lt hlt] at hheld
      have hjoined := returns_joinThread (j := ⟨i, by omega⟩) hdue hlt
        (hfuel _) h hheld
      simp only [List.range'_succ, runAll, returns_bind, returns_pure]
      apply hjoined.mono
      intro _ s₁ hs₁
      exact ih hlt hs₁.1 hs₁.2 (by omega)

theorem departing_told (hworker : ∀ i, s.pool.worker i = .testQuit)
    (hqueue : s.pool.queue = []) (hmutex : s.pool.mutex = none)
    (hstarted : s.started = k) (hlate : ∀ j, s.slot + 2 ≤ due j) :
    Departing due k (told env s) := by
  have hquit : Leaving (withQuit 1 s.pool) :=
    ⟨hqueue, hmutex, one_ne_zero, fun i => Or.inl (hworker i)⟩
  have hran : Leaving (workersRun s.started (env.turns s.slot)
      (withQuit 1 s.pool)) := leaving_moves.run hquit
  have hblock : Leaving (withBlock 0 (workersRun s.started
      (env.turns s.slot) (withQuit 1 s.pool))) :=
    ⟨hran.queue, hran.mutex, hran.quit, hran.worker⟩
  have htold : Leaving (workersRun s.started (env.turns (s.slot + 1))
      (withBlock 0 (workersRun s.started (env.turns s.slot)
        (withQuit 1 s.pool)))) := leaving_moves.run hblock
  refine ⟨⟨htold.queue, htold.mutex, htold.quit, ?_⟩, hstarted, ?_⟩
  · intro i
    refine (htold.worker i).imp (fun hpc => ?_) (fun hpc => ?_)
    · exact (congrArg wake hpc).trans rfl
    · exact (congrArg wake hpc).trans rfl
  · intro j _ hpast
    have hslot : (told env s).slot = s.slot + 2 := rfl
    have hdue := hlate j
    omega

end Departures

/-! ## The whole call -/

/-- The state in which `__threads_create` is called. -/
structure Queued (s : Creation n) : Prop where
  held : s.held = queueParts ++ [.poolBlock]
  queue : s.pool.queue = []
  mutex : s.pool.mutex = none
  quit : s.pool.quit = 0
  worker : ∀ i, s.pool.worker i = .testQuit
  started : s.started = 0
  slot : s.slot = 0

theorem Queued.poised (h : Queued s) (j : Fin n) : Poised j s.pool := by
  refine ⟨⟨h.queue, ?_⟩, h.quit, Or.inl (h.worker j)⟩
  intro i hinside
  rw [h.worker i] at hinside
  cases hinside

/-- Behind a queue the outcome is that of `__threads_create`. -/
theorem threadPoolCreate_queue (hpool : env.grants .poolBlock = true)
    (hqueue : ∀ r ∈ queueParts, env.grants r = true)
    (hs : Unstarted s) :
    ∃ s₁, Queued s₁ ∧ ∀ fuel Q,
      Returns (threadPoolCreate env fuel) s Q ↔
        Returns (threadsCreate env fuel) s₁ (fun ret s₂ =>
          if ret = 0 then Q true s₂
          else Returns (do taskqueueDestroy; release .poolBlock) s₂
            (fun _ s₃ => Q false s₃)) := by
  refine ⟨onPool (withQuit 0) (onPool (initQueue ∘ withMutex none)
    (withHeld (queueParts ++ [.poolBlock]) s)),
    ⟨rfl, rfl, rfl, rfl, hs.worker, hs.started, hs.slot⟩, ?_⟩
  intro fuel Q
  unfold threadPoolCreate
  rw [returns_bind, returns_acquire_granted hpool, if_pos rfl, hs.held,
    returns_bind, returns_taskqueueCreate_granted hqueue, if_pos rfl,
    returns_bind, returns_modify, returns_bind]
  apply returns_congr
  intro ret s₂
  by_cases hret : ret = 0
  · simp [hret]
  · simp [hret]

/-- Every failure behind the queue that leaves an empty queue and a free mutex
is rolled back. -/
theorem rollsBack_of_threadsCreate (hpool : env.grants .poolBlock = true)
    (hqueue : ∀ r ∈ queueParts, env.grants r = true)
    (hs : Unstarted s)
    (h : ∀ s₁, Queued s₁ → ∃ fuel,
      Returns (threadsCreate env fuel) s₁ (fun ret s₂ => ret = -1 ∧
        s₂.held.Perm s₁.held ∧ s₂.pool.queue = [] ∧
        s₂.pool.mutex = none)) :
    RollsBack env s := by
  obtain ⟨s₁, hqueued, hiff⟩ := threadPoolCreate_queue hpool hqueue hs
  obtain ⟨fuel, hfailed⟩ := h s₁ hqueued
  refine ⟨fuel, ?_⟩
  rw [hiff]
  apply hfailed.mono
  intro ret s₂ hs₂
  obtain ⟨hret, hheld₂, hqueue₂, hmutex₂⟩ := hs₂
  rw [hret, if_neg (by decide), returns_bind]
  rw [hqueued.held] at hheld₂
  apply (returns_taskqueueDestroy hqueue₂ hmutex₂ hheld₂).mono
  intro _ s₃ hs₃
  apply returns_release_of_perm hs₃
  intro held₄ hheld₄
  exact ⟨rfl, hheld₄.eq_nil⟩

theorem rollsBack_pool (hpool : env.grants .poolBlock = false)
    (hs : Unstarted s) : RollsBack env s :=
  ⟨0, by simp [threadPoolCreate, returns_acquire_refused hpool, hs.held]⟩

theorem rollsBack_queue (hpool : env.grants .poolBlock = true)
    (hrefused : env.grants .queueBlock = false ∨ env.grants .mutex = false ∨
      env.grants .cond = false) (hs : Unstarted s) : RollsBack env s := by
  refine ⟨0, ?_⟩
  unfold threadPoolCreate
  rw [returns_bind, returns_acquire_granted hpool, if_pos rfl, returns_bind,
    hs.held]
  apply (returns_taskqueueCreate_refused hrefused).mono
  intro created s' hs'
  obtain ⟨rfl, hheld⟩ := hs'
  rw [withHeld_held] at hheld
  have hpoolBlock : s'.held.Perm [.poolBlock] := by rw [hheld]
  rw [if_neg Bool.false_ne_true, returns_bind]
  apply returns_release_of_perm hpoolBlock
  intro held hnone
  rw [returns_pure]
  exact ⟨rfl, hnone.eq_nil⟩

theorem not_rollsBack_spinlock (hpool : env.grants .poolBlock = true)
    (hqueue : env.grants .queueBlock = true)
    (hmutex : env.grants .mutex = true) (hcond : env.grants .cond = true)
    (hspin : env.grants .spinlock = false) (hs : Unstarted s) :
    ¬ RollsBack env s := by
  rintro ⟨fuel, hback⟩
  unfold threadPoolCreate at hback
  rw [returns_bind, returns_acquire_granted hpool, if_pos rfl, returns_bind]
    at hback
  refine not_returns_taskqueueCreate hqueue hmutex hcond hspin ?_ _ hback
  simp [hs.held]

/-- Without the attributes nothing was done. -/
theorem rollsBack_attr (hpool : env.grants .poolBlock = true)
    (hqueue : ∀ r ∈ queueParts, env.grants r = true)
    (hattr : env.grants .attr = false) (hs : Unstarted s) :
    RollsBack env s := by
  apply rollsBack_of_threadsCreate hpool hqueue hs
  intro s₁ hqueued
  refine ⟨0, ?_⟩
  simp [threadsCreate, returns_acquire_refused hattr, hqueued.queue,
    hqueued.mutex]

/-- Without the array of the threads the attributes stay initialised. -/
theorem not_rollsBack_array (hpool : env.grants .poolBlock = true)
    (hqueue : ∀ r ∈ queueParts, env.grants r = true)
    (hattr : env.grants .attr = true)
    (harray : env.grants .threadsArray = false) (hs : Unstarted s) :
    ¬ RollsBack env s := by
  rintro ⟨fuel, hback⟩
  obtain ⟨s₁, hqueued, hiff⟩ := threadPoolCreate_queue hpool hqueue hs
  rw [hiff] at hback
  simp only [threadsCreate, returns_bind, returns_acquire_granted hattr,
    returns_acquire_refused harray, reduceIte, Bool.false_eq_true,
    returns_pure, Int.reduceNeg, Int.reduceEq] at hback
  have hheld₂ : (withHeld (.attr :: s₁.held) s₁).held.Perm
      (queueParts ++ [.poolBlock, .attr]) := by
    rw [withHeld_held, hqueued.held]
    decide
  have hdestroyed := returns_taskqueueDestroy
    (s := withHeld (.attr :: s₁.held) s₁) hqueued.queue hqueued.mutex hheld₂
  obtain ⟨_, s₃, hrun₃, hrest₃⟩ := hback
  have hheld₃ := hdestroyed.of_run hrun₃
  have hfreed : Returns (release .poolBlock) s₃
      (fun _ s₄ => s₄.held.Perm [.attr]) :=
    returns_release_of_perm hheld₃ (fun _ hheld₄ => hheld₄)
  obtain ⟨_, s₄, -, ⟨-, hnone⟩, hattr₄⟩ := hrest₃.and hfreed
  rw [hnone] at hattr₄
  exact absurd hattr₄ (by decide)

section Thread

variable (hattr : env.grants .attr = true)
  (harray : env.grants .threadsArray = true)
  (hstarted : ∀ j < k, env.grants (.thread j) = true) (hlt : k < n)
  (hrefused : env.grants (.thread k) = false)

include hattr harray hstarted hlt hrefused

theorem returns_threadsCreate_thread (hfair : Fair env)
    (hnone : NoneEnters env k) (hs : Queued s) :
    ∃ fuel, Returns (threadsCreate env fuel) s (fun ret s' => ret = -1 ∧
      s'.held.Perm s.held ∧ s'.pool.queue = [] ∧ s'.pool.mutex = none) := by
  obtain ⟨s₁, h, hiff⟩ := threadsCreate_joins hattr harray hstarted hlt
    hrefused hs.slot hs.started
  choose due hlate hdue using fun j => hfair j (k + 2)
  have hpool : s₁.pool = s.pool :=
    h.pool.trans (startedPool_idle hs.worker hnone)
  have hdeparting : Departing due k (told env s₁) := by
    apply departing_told _ _ _ h.started
    · intro j
      rw [h.slot]
      exact hlate j
    · rw [hpool]
      exact hs.worker
    · rw [hpool]
      exact hs.queue
    · rw [hpool]
      exact hs.mutex
  have hbound : ∀ j, due j + 1 < Finset.univ.sup due + 2 := by
    intro j
    have hle := Finset.le_sup (f := due) (Finset.mem_univ j)
    omega
  refine ⟨Finset.univ.sup due + 2, ?_⟩
  rw [hiff]
  apply (returns_joinThreads hdue hlt.le hbound (Nat.zero_le k) hdeparting
    h.held).mono
  rintro _ s₂ ⟨hleft, hheld₂⟩
  apply returns_release_of_perm hheld₂
  intro held₃ hheld₃
  exact ⟨rfl, hheld₃, hleft.leaving.queue, hleft.leaving.mutex⟩

/-- A worker that loaded `quit` too early is not joined, or it owns the mutex
that is to be destroyed. -/
theorem yields_threadsCreate_entered {t : ℕ} {i : Fin n} (hearly : t < k)
    (hle : i.val ≤ t) (hload : .testQuit i ∈ env.turns t) (hs : Queued s)
    (fuel : ℕ) :
    Yields (threadsCreate env fuel) s (fun ret s' => ret = -1 ∧
      s'.pool.queue = [] ∧ s'.pool.mutex = some i) := by
  obtain ⟨s₁, h, hiff⟩ := threadsCreate_joins hattr harray hstarted hlt
    hrefused hs.slot hs.started
  have hentered : Entered i s₁.pool := by
    rw [h.pool]
    exact entered_startedPool hearly hle hload (hs.poised i)
  have hjoined : Yields (runAll (joinThread env fuel)
      (List.range' 0 (k - 0))) (told env s₁) (fun _ s' =>
        Entered i s'.pool ∧ ∀ l ∈ List.range' 0 (k - 0),
          HasReturned l s'.pool) :=
    yields_joinThreads (entered_moves i) (entered_told hentered)
  intro ret s' hrun
  obtain ⟨_, s₂, hrun₂, _, s₃, hrun₃, rfl, rfl⟩ :=
    (hiff fuel (fun ret₃ s₃ => ret₃ = ret ∧ s₃ = s')).mp
      ⟨ret, s', hrun, rfl, rfl⟩
  obtain ⟨hinside, hreturned⟩ := hjoined _ s₂ hrun₂
  have hkept := preserves_release (fun _ _ => withHeld_pool _ _) s₂ _ s₃
    hrun₃
  have hgone : s₂.pool.worker i = .returned := by
    apply hreturned i.val _ i rfl
    rw [List.mem_range'_1]
    omega
  rw [hkept]
  refine ⟨rfl, hinside.queue, ?_⟩
  rcases hinside.inside with hlooking | hleft
  · rw [hgone] at hlooking
    cases hlooking
  · exact hleft.2

theorem rollsBack_thread_iff (hpool : env.grants .poolBlock = true)
    (hqueue : ∀ r ∈ queueParts, env.grants r = true) (hfair : Fair env)
    (hs : Unstarted s) : RollsBack env s ↔ NoneEnters env k := by
  constructor
  · rintro ⟨fuel, hback⟩ t ht i hload
    by_contra hle
    obtain ⟨s₁, hqueued, hiff⟩ := threadPoolCreate_queue hpool hqueue hs
    rw [hiff] at hback
    obtain ⟨ret, s₂, hrun, hrest⟩ := hback
    obtain ⟨hret, hqueue₂, hmutex₂⟩ := yields_threadsCreate_entered hattr
      harray hstarted hlt hrefused ht (not_lt.mp hle) hload hqueued fuel _ _
      hrun
    rw [hret, if_neg (by decide), returns_bind] at hrest
    refine not_returns_taskqueueDestroy hqueue₂ ?_ _ hrest
    rw [hmutex₂]
    exact Option.some_ne_none i
  · intro hnone
    apply rollsBack_of_threadsCreate hpool hqueue hs
    intro s₁ hqueued
    exact returns_threadsCreate_thread hattr harray hstarted hlt hrefused
      hfair hnone hqueued

end Thread

end Threads

/-! ## The order of the steps -/

section Order

variable {env : Environment n} {r : Resource}

def stepNumber : Resource → ℕ
  | .poolBlock => 0
  | .queueBlock => 1
  | .mutex => 2
  | .cond => 3
  | .spinlock => 4
  | .attr => 5
  | .threadsArray => 6
  | .thread i => 7 + i
  | .task _ => 0

theorem creationSteps_pairwise (n : ℕ) :
    (creationSteps n).Pairwise (fun a b => stepNumber a < stepNumber b) := by
  unfold creationSteps
  rw [List.pairwise_append]
  refine ⟨by decide, ?_, ?_⟩
  · rw [List.pairwise_map]
    apply List.pairwise_lt_range.imp
    intro i j hlt
    exact Nat.add_lt_add_left hlt 7
  · intro a ha b hb
    obtain ⟨i, -, rfl⟩ := List.mem_map.mp hb
    have hbound : stepNumber a < 7 := by
      revert a
      decide
    exact Nat.lt_add_right i hbound

theorem granted_before {x : Resource} (hfirst : firstRefused env = some r)
    (hx : x ∈ creationSteps n) (hlt : stepNumber x < stepNumber r) :
    env.grants x = true := by
  obtain ⟨-, before, later, hsplit, hbefore⟩ :=
    List.find?_eq_some_iff_append.mp hfirst
  have hsorted := creationSteps_pairwise n
  rw [hsplit] at hx hsorted
  rcases List.mem_append.mp hx with hmem | hmem
  · simpa using hbefore x hmem
  · exfalso
    have hlater := (List.pairwise_append.mp hsorted).2.1
    rcases List.mem_cons.mp hmem with heq | hafter
    · rw [heq] at hlt
      exact lt_irrefl _ hlt
    · exact lt_asymm hlt ((List.pairwise_cons.mp hlater).1 x hafter)

end Order

/-- `thread_pool_create` gives everything back exactly when the step that fails
has a cleanup that matches it. -/
theorem threadPoolCreate_rollsBack_iff {env : Environment n} {r : Resource}
    (hfirst : firstRefused env = some r) (hfair : Fair env)
    {s : Creation n} (hs : Unstarted s) :
    RollsBack env s ↔ CleanlyRefused env r := by
  have hrefused : env.grants r = false := by
    simpa using List.find?_some hfirst
  have hmem : r ∈ creationSteps n := List.mem_of_find?_eq_some hfirst
  have hbefore : ∀ x ∈ creationSteps 0, stepNumber x < stepNumber r →
      env.grants x = true := by
    intro x hx hlt
    exact granted_before hfirst (List.mem_append_left _ hx) hlt
  have hqueue : 4 < stepNumber r → ∀ x ∈ queueParts, env.grants x = true := by
    intro hlate x hx
    have hparts : ∀ y ∈ queueParts,
        y ∈ creationSteps 0 ∧ stepNumber y ≤ 4 := by decide
    obtain ⟨hstep, hearly⟩ := hparts x hx
    exact hbefore x hstep (hearly.trans_lt hlate)
  cases r with
  | poolBlock => exact iff_of_true (rollsBack_pool hrefused hs) trivial
  | queueBlock =>
      have hpool := hbefore .poolBlock (by decide) (by decide)
      exact iff_of_true (rollsBack_queue hpool (Or.inl hrefused) hs) trivial
  | mutex =>
      have hpool := hbefore .poolBlock (by decide) (by decide)
      exact iff_of_true
        (rollsBack_queue hpool (Or.inr (Or.inl hrefused)) hs) trivial
  | cond =>
      have hpool := hbefore .poolBlock (by decide) (by decide)
      exact iff_of_true
        (rollsBack_queue hpool (Or.inr (Or.inr hrefused)) hs) trivial
  | spinlock =>
      refine iff_of_false (not_rollsBack_spinlock ?_ ?_ ?_ ?_ hrefused hs) id
      · exact hbefore .poolBlock (by decide) (by decide)
      · exact hbefore .queueBlock (by decide) (by decide)
      · exact hbefore .mutex (by decide) (by decide)
      · exact hbefore .cond (by decide) (by decide)
  | attr =>
      have hpool := hbefore .poolBlock (by decide) (by decide)
      exact iff_of_true
        (rollsBack_attr hpool (hqueue (by decide)) hrefused hs) trivial
  | threadsArray =>
      refine iff_of_false (not_rollsBack_array ?_ ?_ ?_ hrefused hs) id
      · exact hbefore .poolBlock (by decide) (by decide)
      · exact hqueue (by decide)
      · exact hbefore .attr (by decide) (by decide)
  | thread k =>
      have hlate : 6 < stepNumber (.thread k) := Nat.lt_add_right k (by decide)
      have hk : k < n := by simpa [creationSteps] using hmem
      have hstarted : ∀ j < k, env.grants (.thread j) = true := by
        intro j hj
        apply granted_before hfirst
        · simp [creationSteps, hj.trans hk]
        · exact Nat.add_lt_add_left hj 7
      refine rollsBack_thread_iff ?_ ?_ hstarted hk hrefused ?_ ?_ hfair hs
      · exact hbefore .attr (by decide) (by simp [stepNumber]; omega)
      · exact hbefore .threadsArray (by decide) (by simp [stepNumber]; omega)
      · exact hbefore .poolBlock (by decide) (by simp [stepNumber])
      · exact hqueue (by omega)
  | task a => simp [creationSteps] at hmem

/-- All that a worker does on an empty queue. -/
def idleRound (i : Fin n) : List (Action n) :=
  [.testQuit i, .popTask i, .lockMutex i, .loadBlock i, .condWait i,
    .relock i, .unlockMutex i]

/-- Only this step fails, and the workers do nothing in the first turns. -/
def refusing (r : Resource) (calm : ℕ) : Environment n where
  grants := fun x => x ≠ r
  turns := fun t =>
    if t < calm then [] else (List.finRange n).flatMap idleRound

theorem fair_refusing (r : Resource) (calm : ℕ) :
    Fair (refusing (n := n) r calm) := by
  intro i t
  refine ⟨t + calm, Nat.le_add_right t calm, ?_⟩
  simp [refusing, idleRound]

def blankCreation (n : ℕ) : Creation n := ⟨[], Pool.initial n, 0, 0, 0⟩

theorem unstarted_blank (n : ℕ) : Unstarted (blankCreation n) :=
  ⟨rfl, rfl, rfl, fun _ => rfl⟩

/-- The third thread is refused before the first two have done a step. -/
theorem threadPoolCreate_rollsBack_iff_sample :
    RollsBack (refusing (.thread 2) 2) (blankCreation 3) := by
  apply (threadPoolCreate_rollsBack_iff (r := .thread 2) (by decide)
    (fair_refusing _ _) (unstarted_blank 3)).mpr
  intro t ht i hload
  have hcalm : (refusing (n := 3) (.thread 2) 2).turns t = [] := if_pos ht
  rw [hcalm] at hload
  cases hload

/-- The spinlock is destroyed without having been initialised, the attributes
are kept, and the mutex that a worker left locked is destroyed. -/
theorem threadPoolCreate_missteps :
    (firstRefused (n := 1) (refusing .spinlock 0) = some .spinlock ∧
      ¬ RollsBack (refusing .spinlock 0) (blankCreation 1)) ∧
    (firstRefused (n := 1) (refusing .threadsArray 0) = some .threadsArray ∧
      ¬ RollsBack (refusing .threadsArray 0) (blankCreation 1)) ∧
    firstRefused (n := 2) (refusing (.thread 1) 0) = some (.thread 1) ∧
      ¬ RollsBack (refusing (.thread 1) 0) (blankCreation 2) := by
  refine ⟨⟨by decide, ?_⟩, ⟨by decide, ?_⟩, by decide, ?_⟩
  · exact not_rollsBack_spinlock (by decide) (by decide) (by decide)
      (by decide) (by decide) (unstarted_blank 1)
  · exact not_rollsBack_array (by decide) (by decide) (by decide) (by decide)
      (unstarted_blank 1)
  · rw [rollsBack_thread_iff (k := 1) (by decide) (by decide) (by decide)
      (by decide) (by decide) (by decide) (by decide) (fair_refusing _ _)
      (unstarted_blank 2)]
    intro hnone
    have hload : .testQuit 0 ∈
        (refusing (n := 2) (.thread 1) 0).turns 0 := by
      simp [refusing, idleRound]
    exact absurd (hnone 0 (by decide) 0 hload) (by decide)

end CAdvanced
