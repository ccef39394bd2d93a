import CAdvanced.PoolCreation

/-!
# The workers while the pool is created

The queue is empty until the pool is handed out, so a worker that found `quit`
clear stays inside `__get_task` or returns from it as owner of the mutex.  A
worker whose first load of `quit` comes after the store returns at once.
-/

namespace CAdvanced

open Pool

variable {n : ℕ}

variable {p p' : Pool n} {a : Action n} {i j : Fin n} {k : ℕ}
  {turns : List (Action n)}

theorem workerTurn_cases (k : ℕ) (p : Pool n) (a : Action n) :
    workerTurn k p a = p ∨ ∃ i, i.val < k ∧ a.byWorker = some i ∧
      Moves p a (workerTurn k p a) := by
  unfold workerTurn
  cases hworker : a.byWorker with
  | none => exact Or.inl rfl
  | some i =>
      dsimp only
      split_ifs with hlt
      · cases hstep : threadpoolWorker p a with
        | none => exact Or.inl rfl
        | some p' =>
            exact Or.inr ⟨i, hlt, rfl, moves_of_threadpoolWorker hstep⟩
      · exact Or.inl rfl

/-- The steps of the workers keep the property. -/
def KeptByWorkers (Inv : Pool n → Prop) : Prop :=
  ∀ p a i p', Inv p → a.byWorker = some i → Moves p a p' → Inv p'

theorem KeptByWorkers.turn {Inv : Pool n → Prop} (hkept : KeptByWorkers Inv)
    (h : Inv p) : Inv (workerTurn k p a) := by
  rcases workerTurn_cases k p a with heq | ⟨i, -, hi, hmove⟩
  · rw [heq]
    exact h
  · exact hkept p a i _ h hi hmove

theorem KeptByWorkers.run {Inv : Pool n → Prop} (hkept : KeptByWorkers Inv)
    (h : Inv p) : Inv (workersRun k turns p) := by
  unfold workersRun
  induction turns generalizing p with
  | nil => exact h
  | cons a turns ih => exact ih (hkept.turn h)

/-- What a turn brings about and the others keep holds when all are over. -/
theorem workersRun_reaches {Inv Done : Pool n → Prop}
    (hkept : KeptByWorkers Inv) (hdone : KeptByWorkers Done) (h : Inv p)
    (hmem : a ∈ turns) (hturn : ∀ p, Inv p → Done (workerTurn k p a)) :
    Done (workersRun k turns p) := by
  obtain ⟨before, after, rfl⟩ := List.append_of_mem hmem
  unfold workersRun
  rw [List.foldl_append, List.foldl_cons]
  exact hdone.run (hturn _ (hkept.run h))

/-- Nothing is queued, and a worker between its lock and its unlock owns the
mutex. -/
structure Orderly (p : Pool n) : Prop where
  queue : p.queue = []
  owner : ∀ i, (p.worker i).insideMutex = true → p.mutex = some i

theorem Orderly.worker {pc : WorkerPc} (h : Orderly p)
    (hpc : pc.insideMutex = true → p.mutex = some i) :
    Orderly (withWorker i pc p) := by
  refine ⟨h.queue, ?_⟩
  intro j hinside
  by_cases heq : j = i
  · subst heq
    rw [withWorker_worker, Function.update_self] at hinside
    exact hpc hinside
  · rw [withWorker_worker, Function.update_of_ne heq] at hinside
    exact h.owner j hinside

theorem Orderly.outside {pc : WorkerPc} (h : Orderly p)
    (hpc : pc.insideMutex = false) : Orderly (withWorker i pc p) := by
  apply h.worker
  intro hinside
  rw [hpc] at hinside
  cases hinside

theorem Orderly.lock {pc : WorkerPc} (h : Orderly p)
    (hfree : p.mutex = none) :
    Orderly (withMutex (some i) (withWorker i pc p)) := by
  refine ⟨h.queue, ?_⟩
  intro j hinside
  by_cases heq : j = i
  · rw [heq]
    rfl
  · have hinside' : (p.worker j).insideMutex = true := by
      simpa [heq] using hinside
    rw [h.owner j hinside'] at hfree
    cases hfree

theorem Orderly.unlock {pc : WorkerPc} (h : Orderly p)
    (hmutex : p.mutex = some i) (hpc : pc.insideMutex = false) :
    Orderly (withMutex none (withWorker i pc p)) := by
  refine ⟨h.queue, ?_⟩
  intro j hinside
  exfalso
  by_cases heq : j = i
  · subst heq
    simp [hpc] at hinside
  · have hinside' : (p.worker j).insideMutex = true := by
      simpa [heq] using hinside
    rw [h.owner j hinside'] at hmutex
    exact heq (Option.some.inj hmutex)

theorem orderly_moves : @KeptByWorkers n Orderly := by
  intro p a i p' h hi hmove
  cases hmove with
  | testQuit_go i hpc hquit => exact h.outside rfl
  | testQuit_leave i hpc hquit => exact h.outside rfl
  | popTask_empty i hpc hqueue => exact h.outside rfl
  | popTask_task i task rest hpc hqueue =>
      rw [h.queue] at hqueue
      cases hqueue
  | lockMutex i hpc hmutex => exact h.lock hmutex
  | loadBlock_leave i hpc hblock => exact h.outside rfl
  | loadBlock_go i hpc hblock =>
      exact h.worker (fun _ => h.owner i (by rw [hpc]; rfl))
  | condWait i hpc hmutex => exact h.unlock hmutex rfl
  | spurious i hpc => exact h.outside rfl
  | relock i hpc hmutex => exact h.lock hmutex
  | unlockMutex i hpc hmutex => exact h.unlock hmutex rfl
  | startTask i task hpc =>
      have hexecuted : Orderly (execute task p) := ⟨h.queue, h.owner⟩
      exact hexecuted.outside rfl
  | finishTask i task hpc => exact h.outside rfl
  | _ => cases hi

/-- The worker is inside `__get_task`. -/
def WorkerPc.looking : WorkerPc → Bool
  | .popTask | .lockMutex | .loadBlock | .condWait | .waiting | .relock
  | .unlockMutex => true
  | _ => false

/-- The worker has found `quit` clear. -/
structure Entered (j : Fin n) (p : Pool n) : Prop extends Orderly p where
  inside : (p.worker j).looking = true ∨
    p.worker j = .returned ∧ p.mutex = some j

/-- Where a worker goes from inside `__get_task`. -/
theorem looking_moves (horder : Orderly p) (h : (p.worker j).looking = true)
    (hi : a.byWorker = some j) (hmove : Moves p a p') :
    (p'.worker j).looking = true ∨
      p'.worker j = .returned ∧ p'.mutex = some j := by
  cases hmove with
  | loadBlock_leave i hpc hblock =>
      cases hi
      right
      exact ⟨Function.update_self j _ _, horder.owner j (by rw [hpc]; rfl)⟩
  | popTask_task i task rest hpc hqueue =>
      rw [horder.queue] at hqueue
      cases hqueue
  | testQuit_go i hpc hquit =>
      cases hi
      rw [hpc] at h
      cases h
  | testQuit_leave i hpc hquit =>
      cases hi
      rw [hpc] at h
      cases h
  | startTask i task hpc =>
      cases hi
      rw [hpc] at h
      cases h
  | finishTask i task hpc =>
      cases hi
      rw [hpc] at h
      cases h
  | popTask_empty i hpc hqueue => cases hi; simp [WorkerPc.looking]
  | lockMutex i hpc hmutex => cases hi; simp [WorkerPc.looking]
  | loadBlock_go i hpc hblock => cases hi; simp [WorkerPc.looking]
  | condWait i hpc hmutex => cases hi; simp [WorkerPc.looking]
  | spurious i hpc => cases hi; simp [WorkerPc.looking]
  | relock i hpc hmutex => cases hi; simp [WorkerPc.looking]
  | unlockMutex i hpc hmutex => cases hi; simp [WorkerPc.looking]
  | _ => cases hi

/-- A step of a worker leaves the others where they are, and what another one
owns. -/
theorem frame_moves (hi : a.byWorker = some i) (hne : j ≠ i)
    (hmove : Moves p a p') :
    p'.worker j = p.worker j ∧
      (p.mutex = some j → p'.mutex = some j) := by
  have hother : ∀ {m : Option (Fin n)}, p.mutex = some i →
      p.mutex = some j → m = some j := by
    intro m hmine hyours
    rw [hmine] at hyours
    exact absurd (Option.some.inj hyours).symm hne
  cases hmove with
  | lockMutex i hpc hmutex => cases hi; simp [hne, hmutex]
  | condWait i hpc hmutex => cases hi; exact ⟨by simp [hne], hother hmutex⟩
  | relock i hpc hmutex => cases hi; simp [hne, hmutex]
  | unlockMutex i hpc hmutex => cases hi; exact ⟨by simp [hne], hother hmutex⟩
  | testQuit_go i hpc hquit => cases hi; simp [hne]
  | testQuit_leave i hpc hquit => cases hi; simp [hne]
  | popTask_empty i hpc hqueue => cases hi; simp [hne]
  | popTask_task i task rest hpc hqueue => cases hi; simp [hne]
  | loadBlock_leave i hpc hblock => cases hi; simp [hne]
  | loadBlock_go i hpc hblock => cases hi; simp [hne]
  | spurious i hpc => cases hi; simp [hne]
  | startTask i task hpc => cases hi; simp [hne]
  | finishTask i task hpc => cases hi; simp [hne]
  | _ => cases hi

/-- A worker that has returned takes no step. -/
theorem returned_stuck (h : p.worker i = .returned)
    (hi : a.byWorker = some i) : ¬ Moves p a p' := by
  intro hmove
  cases hmove <;> cases hi <;> simp_all

theorem entered_moves (j : Fin n) : KeptByWorkers (Entered j) := by
  intro p a i p' h hi hmove
  refine ⟨orderly_moves p a i p' h.toOrderly hi hmove, ?_⟩
  by_cases hne : j = i
  · subst hne
    rcases h.inside with hlooking | ⟨hreturned, -⟩
    · exact looking_moves h.toOrderly hlooking hi hmove
    · exact absurd hmove (returned_stuck hreturned hi)
  · obtain ⟨hworker, hkept⟩ := frame_moves hi hne hmove
    rw [hworker]
    exact h.inside.imp_right (And.imp_right hkept)

theorem quit_moves (hi : a.byWorker = some i) (hmove : Moves p a p') :
    p'.quit = p.quit := by
  cases hmove <;> first | rfl | cases hi

/-- A worker that is still at its first load of `quit`. -/
theorem testQuit_moves (h : p.worker i = .testQuit)
    (hi : a.byWorker = some i) (hmove : Moves p a p') :
    a = .testQuit i := by
  cases hmove <;> cases hi <;> first | rfl | simp_all

/-- `quit` is clear, and the worker is inside or may still go there. -/
structure Poised (j : Fin n) (p : Pool n) : Prop where
  orderly : Orderly p
  quit : p.quit = 0
  worker : p.worker j = .testQuit ∨ Entered j p

theorem poised_moves (j : Fin n) : KeptByWorkers (Poised j) := by
  intro p a i p' h hi hmove
  have horder := orderly_moves p a i p' h.orderly hi hmove
  refine ⟨horder, (quit_moves hi hmove).trans h.quit, ?_⟩
  rcases h.worker with hpc | hentered
  · by_cases heq : j = i
    · subst heq
      have hload := testQuit_moves hpc hi hmove
      subst hload
      cases hmove with
      | testQuit_go _ _ hquit =>
          exact Or.inr ⟨horder, Or.inl (by simp [WorkerPc.looking])⟩
      | testQuit_leave _ _ hquit => exact absurd h.quit hquit
    · exact Or.inl ((frame_moves hi heq hmove).1.trans hpc)
  · exact Or.inr (entered_moves j p a i p' hentered hi hmove)

theorem entered_of_load (h : Poised j p) (hlt : j.val < k) :
    Entered j (workerTurn k p (.testQuit j)) := by
  rcases h.worker with hpc | hentered
  · have hturn : workerTurn k p (.testQuit j) = withWorker j .popTask p := by
      simp [workerTurn, Action.byWorker, threadpoolWorker, hlt, hpc, h.quit]
    rw [hturn]
    refine ⟨h.orderly.outside rfl, Or.inl ?_⟩
    simp [WorkerPc.looking]
  · exact (entered_moves j).turn hentered

/-- A worker that loads `quit` while it is clear is inside from then on. -/
theorem entered_workersRun (h : Poised j p) (hlt : j.val < k)
    (hmem : .testQuit j ∈ turns) : Entered j (workersRun k turns p) :=
  workersRun_reaches (poised_moves j) (entered_moves j) h hmem
    (fun _ hp => entered_of_load hp hlt)

/-- Workers that do not load `quit` do nothing. -/
theorem workersRun_idle (hworker : ∀ i, p.worker i = .testQuit)
    (hlate : ∀ i : Fin n, .testQuit i ∈ turns → k ≤ i.val) :
    workersRun k turns p = p := by
  unfold workersRun
  induction turns with
  | nil => rfl
  | cons a turns ih =>
      have hstay : workerTurn k p a = p := by
        rcases workerTurn_cases k p a with heq | ⟨i, hlt, hi, hmove⟩
        · exact heq
        · have hload := testQuit_moves (hworker i) hi hmove
          have hge := hlate i (hload ▸ List.mem_cons_self)
          omega
      rw [List.foldl_cons, hstay]
      exact ih (fun i hi => hlate i (List.mem_cons_of_mem _ hi))

/-- `quit` is set, and no worker is past its test but those that returned. -/
structure Leaving (p : Pool n) : Prop where
  queue : p.queue = []
  mutex : p.mutex = none
  quit : p.quit ≠ 0
  worker : ∀ i, p.worker i = .testQuit ∨ p.worker i = .returned

theorem Leaving.leave (h : Leaving p) :
    Leaving (withWorker i .returned p) := by
  refine ⟨h.queue, h.mutex, h.quit, ?_⟩
  intro j
  by_cases heq : j = i
  · subst heq
    exact Or.inr (Function.update_self j _ _)
  · rw [withWorker_worker, Function.update_of_ne heq]
    exact h.worker j

theorem leaving_moves : @KeptByWorkers n Leaving := by
  intro p a i p' h hi hmove
  rcases h.worker i with hpc | hreturned
  · have hload := testQuit_moves hpc hi hmove
    subst hload
    cases hmove with
    | testQuit_go _ _ hquit => exact absurd hquit h.quit
    | testQuit_leave _ _ hquit => exact h.leave
  · exact absurd hmove (returned_stuck hreturned hi)

theorem gone_moves (j : Fin n) :
    KeptByWorkers (fun p => p.worker j = .returned) := by
  intro p a i p' h hi hmove
  by_cases heq : j = i
  · subst heq
    exact absurd hmove (returned_stuck h hi)
  · exact (frame_moves hi heq hmove).1.trans h

/-- A worker that loads `quit` when it is set returns. -/
theorem returned_workersRun (h : Leaving p) (hlt : j.val < k)
    (hmem : .testQuit j ∈ turns) :
    (workersRun k turns p).worker j = .returned := by
  apply workersRun_reaches leaving_moves (gone_moves j) h hmem
  intro q hq
  rcases hq.worker j with hpc | hreturned
  · simp [workerTurn, Action.byWorker, threadpoolWorker, hlt, hpc, hq.quit]
  · exact (gone_moves j).turn hreturned

end CAdvanced
