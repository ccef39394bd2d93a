import CAdvanced.ThreadPool

/-!
# Where the tasks of the thread pool are

Every task that was put into the queue is still there, or held by one worker
that took it, or was handed to its function, or was discarded when the queue was
destroyed; it is so in exactly one of these ways, and only once.
-/

namespace CAdvanced

open Transition
open Pool

variable {n : ℕ}

/-! ## Serial numbers -/

/-- No two tasks have the same serial number. -/
structure SerialsDiffer (s : Pool n) : Prop where
  nodup : (s.enqueued.map Task.serial).Nodup
  old : ∀ t ∈ s.enqueued, t.serial < s.created
  pending : ∀ c t, s.client c = .adding t →
    t.serial < s.created ∧ ∀ u ∈ s.enqueued, u.serial ≠ t.serial
  distinct : ∀ c c' t t', s.client c = .adding t → s.client c' = .adding t' →
    c ≠ c' → t.serial ≠ t'.serial

section Serials

variable {s s' : Pool n} {a : Action n}

theorem serialsDiffer_initial (n : ℕ) : SerialsDiffer (Pool.initial n) := by
  constructor <;> simp [Pool.initial]

theorem SerialsDiffer.client (h : SerialsDiffer s) {c : ℕ} {pc : ClientPc}
    (hpc : ∀ t, pc ≠ .adding t) : SerialsDiffer (withClient c pc s) := by
  have hold : ∀ c' t, (withClient c pc s).client c' = .adding t →
      s.client c' = .adding t := by
    intro c' t hc'
    by_cases hcc : c' = c
    · subst hcc
      exact absurd (by simpa using hc') (hpc t)
    · simpa [hcc] using hc'
  refine ⟨h.nodup, h.old, ?_, ?_⟩
  · intro c' t hc'
    exact h.pending c' t (hold c' t hc')
  · intro c' c'' t t' hc' hc''
    exact h.distinct c' c'' t t' (hold c' t hc') (hold c'' t' hc'')

theorem SerialsDiffer.allocate (h : SerialsDiffer s) (c func arg : ℕ) :
    SerialsDiffer
      (withClient c (.adding ⟨s.created, func, arg⟩) (create s)) := by
  have hcases : ∀ c' t, (withClient c (.adding ⟨s.created, func, arg⟩)
      (create s)).client c' = .adding t →
      (c' = c ∧ t.serial = s.created) ∨
        (c' ≠ c ∧ s.client c' = .adding t) := by
    intro c' t hc'
    by_cases hcc : c' = c
    · subst hcc
      simp only [withClient_client, Function.update_self,
        ClientPc.adding.injEq] at hc'
      subst hc'
      exact Or.inl ⟨rfl, rfl⟩
    · exact Or.inr ⟨hcc, by simpa [hcc] using hc'⟩
  refine ⟨h.nodup, fun t ht => Nat.lt_succ_of_lt (h.old t ht), ?_, ?_⟩
  · intro c' t hc'
    rcases hcases c' t hc' with ⟨-, hserial⟩ | ⟨-, hc'⟩
    · rw [hserial]
      exact ⟨Nat.lt_succ_self _, fun u hu => (h.old u hu).ne⟩
    · have hpending := h.pending c' t hc'
      exact ⟨Nat.lt_succ_of_lt hpending.1, hpending.2⟩
  · intro c' c'' t t' hc' hc'' hne
    rcases hcases c' t hc' with ⟨hcc', hserial⟩ | ⟨-, hc'⟩
    · rcases hcases c'' t' hc'' with ⟨hcc'', -⟩ | ⟨-, hc''⟩
      · exact absurd (hcc'.trans hcc''.symm) hne
      · rw [hserial]
        exact (h.pending c'' t' hc'').1.ne'
    · rcases hcases c'' t' hc'' with ⟨-, hserial⟩ | ⟨-, hc''⟩
      · rw [hserial]
        exact (h.pending c' t hc').1.ne
      · exact h.distinct c' c'' t t' hc' hc'' hne

theorem SerialsDiffer.add (h : SerialsDiffer s) {c : ℕ} {t : Task}
    (hc : s.client c = .adding t) :
    SerialsDiffer (withClient c (.signalling t) (enqueue t s)) := by
  have hpending := h.pending c t hc
  have hcases : ∀ c' u, (withClient c (.signalling t)
      (enqueue t s)).client c' = .adding u →
      c' ≠ c ∧ s.client c' = .adding u := by
    intro c' u hc'
    by_cases hcc : c' = c
    · subst hcc
      simp at hc'
    · exact ⟨hcc, by simpa [hcc] using hc'⟩
  refine ⟨?_, ?_, ?_, ?_⟩
  · simp only [withClient_enqueued, enqueue_enqueued, List.map_append,
      List.map_singleton]
    rw [List.nodup_append]
    refine ⟨h.nodup, by simp, ?_⟩
    intro k hk k' hk'
    obtain ⟨u, hu, rfl⟩ := List.mem_map.mp hk
    rw [List.mem_singleton.mp hk']
    exact hpending.2 u hu
  · intro u hu
    rcases List.mem_append.mp hu with hu | hu
    · exact h.old u hu
    · rw [List.mem_singleton.mp hu]
      exact hpending.1
  · intro c' u hc'
    obtain ⟨hne, hc'⟩ := hcases c' u hc'
    have hother := h.pending c' u hc'
    refine ⟨hother.1, ?_⟩
    intro v hv
    rcases List.mem_append.mp hv with hv | hv
    · exact hother.2 v hv
    · rw [List.mem_singleton.mp hv]
      exact h.distinct c c' t u hc hc' hne.symm
  · intro c' c'' u v hc' hc''
    exact h.distinct c' c'' u v (hcases c' u hc').2 (hcases c'' v hc'').2

theorem serialsDiffer_moves (h : SerialsDiffer s) (hmove : Moves s a s') :
    SerialsDiffer s' := by
  have hframe : ∀ t : Pool n, t.enqueued = s.enqueued →
      t.created = s.created → t.client = s.client → SerialsDiffer t := by
    intro t henqueued hcreated hclient
    refine ⟨?_, ?_, ?_, ?_⟩
    · rw [henqueued]
      exact h.nodup
    · rw [henqueued, hcreated]
      exact h.old
    · rw [henqueued, hcreated, hclient]
      exact h.pending
    · rw [hclient]
      exact h.distinct
  cases hmove with
  | post c func arg hpc => exact h.client (by simp)
  | testPost_refuse c func arg hpc hquit => exact h.client (by simp)
  | testPost_go c func arg hpc hquit => exact h.client (by simp)
  | allocate_refuse c func arg hpc => exact h.client (by simp)
  | allocate_grant c func arg hpc => exact h.allocate c func arg
  | addTask c task hpc => exact h.add hpc
  | signal_heard c task i hpc hwaiting =>
      exact (hframe (accept task (withWorker i .relock s)) rfl rfl rfl).client
        (by simp)
  | signal_unheard c task hpc hnone =>
      exact (hframe (accept task s) rfl rfl rfl).client (by simp)
  | terminate c hpc => exact h.client (by simp)
  | storeQuit c hpc =>
      exact (hframe (withQuit 1 s) rfl rfl rfl).client (by simp)
  | storeBlock c hpc =>
      exact (hframe (withBlock 0 s) rfl rfl rfl).client (by simp)
  | broadcast c hpc => exact (hframe (wakeAll s) rfl rfl rfl).client (by simp)
  | _ => exact hframe _ rfl rfl rfl

end Serials

/-! ## Conservation -/

/-- Does the worker hold the task that it took? -/
def heldBy (t : Task) : WorkerPc → ℕ
  | .holding u => if u = t then 1 else 0
  | _ => 0

def held (s : Pool n) (t : Task) : ℕ := ∑ i, heldBy t (s.worker i)

/-- The queue is what was put into it without what left it at the front, and
every task is in one place for each time that it was put in. -/
structure Conserved (s : Pool n) : Prop where
  fifo : s.enqueued = s.taken ++ s.queue
  places : ∀ t, s.queue.count t + held s t + s.executed.count t
    + s.discarded.count t = s.enqueued.count t

section Conservation

variable {s s' : Pool n} {a : Action n}

theorem held_withWorker (s : Pool n) (i : Fin n) (pc : WorkerPc) (t : Task) :
    held (withWorker i pc s) t + heldBy t (s.worker i)
      = held s t + heldBy t pc :=
  sum_update (heldBy t) s.worker i pc

theorem held_wakeAll (s : Pool n) (t : Task) : held (wakeAll s) t = held s t := by
  apply Finset.sum_congr rfl
  intro i _
  rw [wakeAll_worker]
  cases s.worker i <;> rfl

theorem conserved_initial (n : ℕ) : Conserved (Pool.initial n) := by
  refine ⟨rfl, ?_⟩
  intro t
  simp [Pool.initial, held, heldBy]

theorem Conserved.worker (h : Conserved s) {i : Fin n} {pc : WorkerPc}
    (hold : ∀ t, heldBy t (s.worker i) = 0) (hnew : ∀ t, heldBy t pc = 0) :
    Conserved (withWorker i pc s) := by
  refine ⟨h.fifo, ?_⟩
  intro t
  have hheld := held_withWorker s i pc t
  rw [hold, hnew] at hheld
  have hplaces := h.places t
  simp only [withWorker_queue, withWorker_executed, withWorker_discarded,
    withWorker_enqueued]
  omega

theorem Conserved.popTask (h : Conserved s) {i : Fin n} {task : Task}
    {rest : List Task} (hpc : s.worker i = .popTask)
    (hqueue : s.queue = task :: rest) :
    Conserved (withWorker i (.holding task) (take task rest s)) := by
  refine ⟨?_, ?_⟩
  · simp only [withWorker_enqueued, take_enqueued, withWorker_taken,
      take_taken, withWorker_queue, take_queue, List.append_assoc,
      List.singleton_append]
    rw [← hqueue]
    exact h.fifo
  · intro t
    have hheld := held_withWorker (take task rest s) i (.holding task) t
    have htake : held (take task rest s) t = held s t := rfl
    have hplaces := h.places t
    rw [hqueue, List.count_cons] at hplaces
    simp only [take_worker, hpc, heldBy, htake] at hheld
    simp only [withWorker_queue, take_queue, withWorker_executed,
      take_executed, withWorker_discarded, take_discarded,
      withWorker_enqueued, take_enqueued]
    simp only [beq_iff_eq] at hplaces
    omega

theorem Conserved.startTask (h : Conserved s) {i : Fin n} {task : Task}
    (hpc : s.worker i = .holding task) :
    Conserved (withWorker i (.running task) (execute task s)) := by
  refine ⟨h.fifo, ?_⟩
  intro t
  have hheld := held_withWorker (execute task s) i (.running task) t
  have hexecute : held (execute task s) t = held s t := rfl
  have hplaces := h.places t
  simp only [execute_worker, hpc, heldBy, hexecute] at hheld
  simp only [withWorker_queue, execute_queue, withWorker_executed,
    execute_executed, withWorker_discarded, execute_discarded,
    withWorker_enqueued, execute_enqueued, List.count_append,
    List.count_singleton, beq_iff_eq]
  omega

theorem Conserved.add (h : Conserved s) (task : Task) :
    Conserved (enqueue task s) := by
  refine ⟨?_, ?_⟩
  · simp only [enqueue_enqueued, enqueue_taken, enqueue_queue, h.fifo,
      List.append_assoc]
  · intro t
    have henqueue : held (enqueue task s) t = held s t := rfl
    have hplaces := h.places t
    simp only [enqueue_queue, enqueue_executed, enqueue_discarded,
      enqueue_enqueued, List.count_append, henqueue]
    omega

theorem Conserved.drain (h : Conserved s) {task : Task} {rest : List Task}
    (hqueue : s.queue = task :: rest) :
    Conserved (discard task (take task rest s)) := by
  refine ⟨?_, ?_⟩
  · simp only [discard_enqueued, take_enqueued, discard_taken, take_taken,
      discard_queue, take_queue, List.append_assoc, List.singleton_append]
    rw [← hqueue]
    exact h.fifo
  · intro t
    have hdiscard : held (discard task (take task rest s)) t = held s t := rfl
    have hplaces := h.places t
    rw [hqueue, List.count_cons] at hplaces
    simp only [discard_queue, take_queue, discard_executed, take_executed,
      discard_discarded, take_discarded, discard_enqueued, take_enqueued,
      List.count_append, List.count_singleton, hdiscard]
    omega

theorem conserved_moves (h : Conserved s) (hmove : Moves s a s') :
    Conserved s' := by
  have hframe : ∀ t : Pool n, t.queue = s.queue → t.enqueued = s.enqueued →
      t.taken = s.taken → t.executed = s.executed →
      t.discarded = s.discarded → (∀ u, held t u = held s u) →
      Conserved t := by
    intro t hqueue henqueued htaken hexecuted hdiscarded hheld
    refine ⟨?_, ?_⟩
    · rw [henqueued, htaken, hqueue]
      exact h.fifo
    · intro u
      rw [henqueued, hqueue, hexecuted, hdiscarded, hheld]
      exact h.places u
  cases hmove with
  | testQuit_go i hpc hquit =>
      exact h.worker (by simp [hpc, heldBy]) (by simp [heldBy])
  | testQuit_leave i hpc hquit =>
      exact h.worker (by simp [hpc, heldBy]) (by simp [heldBy])
  | popTask_empty i hpc hqueue =>
      exact h.worker (by simp [hpc, heldBy]) (by simp [heldBy])
  | popTask_task i task rest hpc hqueue => exact h.popTask hpc hqueue
  | lockMutex i hpc hmutex =>
      have hworker : Conserved (withWorker i .loadBlock s) :=
        h.worker (by simp [hpc, heldBy]) (by simp [heldBy])
      exact ⟨hworker.fifo, hworker.places⟩
  | loadBlock_leave i hpc hblock =>
      exact h.worker (by simp [hpc, heldBy]) (by simp [heldBy])
  | loadBlock_go i hpc hblock =>
      exact h.worker (by simp [hpc, heldBy]) (by simp [heldBy])
  | condWait i hpc hmutex =>
      have hworker : Conserved (withWorker i .waiting s) :=
        h.worker (by simp [hpc, heldBy]) (by simp [heldBy])
      exact ⟨hworker.fifo, hworker.places⟩
  | spurious i hpc =>
      exact h.worker (by simp [hpc, heldBy]) (by simp [heldBy])
  | relock i hpc hmutex =>
      have hworker : Conserved (withWorker i .unlockMutex s) :=
        h.worker (by simp [hpc, heldBy]) (by simp [heldBy])
      exact ⟨hworker.fifo, hworker.places⟩
  | unlockMutex i hpc hmutex =>
      have hworker : Conserved (withWorker i .popTask s) :=
        h.worker (by simp [hpc, heldBy]) (by simp [heldBy])
      exact ⟨hworker.fifo, hworker.places⟩
  | startTask i task hpc => exact h.startTask hpc
  | finishTask i task hpc =>
      exact h.worker (by simp [hpc, heldBy]) (by simp [heldBy])
  | addTask c task hpc =>
      have hadd := h.add task
      exact ⟨hadd.fifo, hadd.places⟩
  | signal_heard c task i hpc hwaiting =>
      have hworker : Conserved (withWorker i .relock s) :=
        h.worker (by simp [hwaiting, heldBy]) (by simp [heldBy])
      exact ⟨hworker.fifo, hworker.places⟩
  | broadcast c hpc =>
      exact hframe _ rfl rfl rfl rfl rfl (held_wakeAll s)
  | drain_task task rest hpc hqueue => exact h.drain hqueue
  | _ => exact hframe _ rfl rfl rfl rfl rfl (fun _ => rfl)

end Conservation

/-! ## Accepted tasks -/

/-- A task whose post may still signal, or has returned 0, was put into the
queue. -/
structure AcceptedQueued (s : Pool n) : Prop where
  signalling : ∀ c t, s.client c = .signalling t → t ∈ s.enqueued
  accepted : ∀ t ∈ s.accepted, t ∈ s.enqueued

section Accepted

variable {s s' : Pool n} {a : Action n}

theorem AcceptedQueued.client (h : AcceptedQueued s) {c : ℕ} {pc : ClientPc}
    (hpc : ∀ t, pc = .signalling t → t ∈ s.enqueued) :
    AcceptedQueued (withClient c pc s) := by
  refine ⟨?_, h.accepted⟩
  intro c' t hc'
  by_cases hcc : c' = c
  · subst hcc
    exact hpc t (by simpa using hc')
  · exact h.signalling c' t (by simpa [hcc] using hc')

theorem AcceptedQueued.accept (h : AcceptedQueued s) {t : Task}
    (ht : t ∈ s.enqueued) : AcceptedQueued (accept t s) := by
  refine ⟨h.signalling, ?_⟩
  intro u hu
  rcases List.mem_append.mp hu with hu | hu
  · exact h.accepted u hu
  · rw [List.mem_singleton.mp hu]
    exact ht

theorem AcceptedQueued.add (h : AcceptedQueued s) (t : Task) :
    AcceptedQueued (enqueue t s) := by
  refine ⟨?_, ?_⟩
  · intro c u hc
    exact List.mem_append_left _ (h.signalling c u hc)
  · intro u hu
    exact List.mem_append_left _ (h.accepted u hu)

theorem acceptedQueued_moves (h : AcceptedQueued s) (hmove : Moves s a s') :
    AcceptedQueued s' := by
  have hframe : ∀ t : Pool n, t.enqueued = s.enqueued →
      t.accepted = s.accepted → t.client = s.client → AcceptedQueued t := by
    intro t henqueued haccepted hclient
    refine ⟨?_, ?_⟩
    · rw [hclient, henqueued]
      exact h.signalling
    · rw [haccepted, henqueued]
      exact h.accepted
  cases hmove with
  | post c func arg hpc => exact h.client (by simp)
  | testPost_refuse c func arg hpc hquit => exact h.client (by simp)
  | testPost_go c func arg hpc hquit => exact h.client (by simp)
  | allocate_refuse c func arg hpc => exact h.client (by simp)
  | allocate_grant c func arg hpc =>
      exact (hframe (create s) rfl rfl rfl).client (by simp)
  | addTask c task hpc =>
      apply (h.add task).client
      intro t ht
      cases ht
      exact List.mem_append_right _ (List.mem_singleton_self _)
  | signal_heard c task i hpc hwaiting =>
      have hwoken := hframe (withWorker i .relock s) rfl rfl rfl
      exact (hwoken.accept (h.signalling c task hpc)).client (by simp)
  | signal_unheard c task hpc hnone =>
      exact (h.accept (h.signalling c task hpc)).client (by simp)
  | terminate c hpc => exact h.client (by simp)
  | storeQuit c hpc =>
      exact (hframe (withQuit 1 s) rfl rfl rfl).client (by simp)
  | storeBlock c hpc =>
      exact (hframe (withBlock 0 s) rfl rfl rfl).client (by simp)
  | broadcast c hpc => exact (hframe (wakeAll s) rfl rfl rfl).client (by simp)
  | _ => exact hframe _ rfl rfl rfl

end Accepted

/-! ## Termination -/

/-- Workers leave, and tasks are discarded, after `quit` was set only. -/
structure QuitFirst (s : Pool n) : Prop where
  quit : s.quit = 0 ∨ s.quit = 1
  storing : ∀ c, s.client c = .storingBlock → s.quit = 1
  block : s.block = 0 → s.quit = 1
  left : ∀ i, s.worker i = .returned → s.quit = 1
  discarded : s.discarded ≠ [] → s.quit = 1

section Termination

variable {s s' : Pool n} {a : Action n}

theorem QuitFirst.worker (h : QuitFirst s) {i : Fin n} {pc : WorkerPc}
    (hpc : pc = .returned → s.quit = 1) : QuitFirst (withWorker i pc s) := by
  refine ⟨h.quit, h.storing, h.block, ?_, h.discarded⟩
  intro j hj
  by_cases hij : j = i
  · subst hij
    exact hpc (by simpa using hj)
  · exact h.left j (by simpa [hij] using hj)

theorem QuitFirst.client (h : QuitFirst s) {c : ℕ} {pc : ClientPc}
    (hpc : pc ≠ .storingBlock) : QuitFirst (withClient c pc s) := by
  refine ⟨h.quit, ?_, h.block, h.left, h.discarded⟩
  intro c' hc'
  by_cases hcc : c' = c
  · subst hcc
    exact absurd (by simpa using hc') hpc
  · exact h.storing c' (by simpa [hcc] using hc')

theorem quitFirst_moves (h : QuitFirst s) (hn : 0 < n) (hjoined : Joined s)
    (hmove : Moves s a s') : QuitFirst s' := by
  have hframe : ∀ t : Pool n, t.quit = s.quit → t.block = s.block →
      t.client = s.client → t.worker = s.worker →
      t.discarded = s.discarded → QuitFirst t := by
    intro t hquit hblock hclient hworker hdiscarded
    refine ⟨?_, ?_, ?_, ?_, ?_⟩
    · rw [hquit]
      exact h.quit
    · rw [hclient, hquit]
      exact h.storing
    · rw [hblock, hquit]
      exact h.block
    · rw [hworker, hquit]
      exact h.left
    · rw [hdiscarded, hquit]
      exact h.discarded
  cases hmove with
  | testQuit_go i hpc hquit => exact h.worker (by simp)
  | testQuit_leave i hpc hquit =>
      exact h.worker (fun _ => h.quit.resolve_left hquit)
  | popTask_empty i hpc hqueue => exact h.worker (by simp)
  | popTask_task i task rest hpc hqueue =>
      have htake := hframe (take task rest s) rfl rfl rfl rfl rfl
      exact htake.worker (by simp)
  | lockMutex i hpc hmutex =>
      have hlock := hframe (withMutex (some i) s) rfl rfl rfl rfl rfl
      exact hlock.worker (by simp)
  | loadBlock_leave i hpc hblock => exact h.worker (fun _ => h.block hblock)
  | loadBlock_go i hpc hblock => exact h.worker (by simp)
  | condWait i hpc hmutex =>
      have hunlock := hframe (withMutex none s) rfl rfl rfl rfl rfl
      exact hunlock.worker (by simp)
  | spurious i hpc => exact h.worker (by simp)
  | relock i hpc hmutex =>
      have hlock := hframe (withMutex (some i) s) rfl rfl rfl rfl rfl
      exact hlock.worker (by simp)
  | unlockMutex i hpc hmutex =>
      have hunlock := hframe (withMutex none s) rfl rfl rfl rfl rfl
      exact hunlock.worker (by simp)
  | startTask i task hpc =>
      have hexecute := hframe (execute task s) rfl rfl rfl rfl rfl
      exact hexecute.worker (by simp)
  | finishTask i task hpc => exact h.worker (by simp)
  | post c func arg hpc => exact h.client (by simp)
  | testPost_refuse c func arg hpc hquit => exact h.client (by simp)
  | testPost_go c func arg hpc hquit => exact h.client (by simp)
  | allocate_refuse c func arg hpc => exact h.client (by simp)
  | allocate_grant c func arg hpc =>
      exact (hframe (create s) rfl rfl rfl rfl rfl).client (by simp)
  | addTask c task hpc =>
      exact (hframe (enqueue task s) rfl rfl rfl rfl rfl).client (by simp)
  | signal_heard c task i hpc hwaiting =>
      have haccept := hframe (accept task s) rfl rfl rfl rfl rfl
      have hwoken : QuitFirst (withWorker i .relock
          (accept task s)) := haccept.worker (by simp)
      exact hwoken.client (by simp)
  | signal_unheard c task hpc hnone =>
      exact (hframe (accept task s) rfl rfl rfl rfl rfl).client (by simp)
  | terminate c hpc => exact h.client (by simp)
  | storeQuit c hpc =>
      exact ⟨Or.inr rfl, fun _ _ => rfl, fun _ => rfl, fun _ _ => rfl,
        fun _ => rfl⟩
  | storeBlock c hpc =>
      have hquit := h.storing c hpc
      have hblock : QuitFirst (withBlock 0 s) :=
        ⟨h.quit, h.storing, fun _ => hquit, h.left, h.discarded⟩
      exact hblock.client (by simp)
  | broadcast c hpc =>
      have hwake : QuitFirst (wakeAll s) := by
        refine ⟨h.quit, h.storing, h.block, ?_, h.discarded⟩
        intro i hi
        apply h.left i
        rw [wakeAll_worker] at hi
        cases hpc : s.worker i <;> rw [hpc] at hi <;> first | rfl | cases hi
      exact hwake.client (by simp)
  | drain_task task rest hpc hqueue =>
      have hreturned : s.worker ⟨0, hn⟩ = .returned :=
        hjoined ⟨0, hn⟩ (by rw [hpc]; exact hn)
      exact ⟨h.quit, h.storing, h.block, h.left,
        fun _ => h.left _ hreturned⟩
  | waitdone hpc => exact hframe _ rfl rfl rfl rfl rfl
  | join_worker count hpc hlt hreturned => exact hframe _ rfl rfl rfl rfl rfl
  | join_all count hpc hge => exact hframe _ rfl rfl rfl rfl rfl
  | drain_empty hpc hqueue => exact hframe _ rfl rfl rfl rfl rfl
  | destroy hpc => exact hframe _ rfl rfl rfl rfl rfl

end Termination

/-! ## The end of the pool -/

/-- The client is inside `thread_pool_post`. -/
def ClientPc.posting : ClientPc → Bool
  | .testing .. | .allocating .. | .adding _ | .signalling _ => true
  | _ => false

/-- No post overlaps with `thread_pool_waitdone`. -/
def PostsBeforeWaitdone (s : Pool n) : Action n → Prop
  | .post .. => s.waitdone = .idle
  | .waitdone => ∀ c, (s.client c).posting = false
  | _ => True

structure PostsOver (s : Pool n) : Prop where
  posts : s.waitdone ≠ .idle → ∀ c, (s.client c).posting = false
  drained : s.waitdone = .destroying ∨ s.waitdone = .returned → s.queue = []

section Ending

variable {s s' : Pool n} {a : Action n}

theorem PostsOver.client (h : PostsOver s) {c : ℕ} {pc : ClientPc}
    (hpc : s.waitdone ≠ .idle → pc.posting = false) :
    PostsOver (withClient c pc s) := by
  refine ⟨?_, h.drained⟩
  intro hover c'
  by_cases hcc : c' = c
  · subst hcc
    simpa using hpc hover
  · simpa [hcc] using h.posts hover c'

theorem PostsOver.idle (h : PostsOver s) {c : ℕ}
    (hc : (s.client c).posting = true) : s.waitdone = .idle := by
  by_contra hover
  rw [h.posts hover c] at hc
  cases hc

theorem postsOver_moves (h : PostsOver s) (hguard : PostsBeforeWaitdone s a)
    (hmove : Moves s a s') : PostsOver s' := by
  have hframe : ∀ t : Pool n, t.waitdone = s.waitdone →
      t.client = s.client → t.queue = s.queue → PostsOver t := by
    intro t hwaitdone hclient hqueue
    refine ⟨?_, ?_⟩
    · rw [hwaitdone, hclient]
      exact h.posts
    · rw [hwaitdone, hqueue]
      exact h.drained
  have hphase : ∀ pc, s.waitdone ≠ .idle → pc ≠ .destroying →
      pc ≠ .returned → PostsOver (withWaitdone pc s) := by
    intro pc hover hdestroying hreturned
    refine ⟨fun _ => h.posts hover, ?_⟩
    intro hpc
    rcases hpc with hpc | hpc
    · exact absurd hpc hdestroying
    · exact absurd hpc hreturned
  cases hmove with
  | popTask_task i task rest hpc hqueue =>
      refine ⟨h.posts, ?_⟩
      intro hover
      rw [h.drained hover] at hqueue
      cases hqueue
  | post c func arg hpc => exact h.client (fun hover => absurd hguard hover)
  | testPost_refuse c func arg hpc hquit => exact h.client (fun _ => rfl)
  | testPost_go c func arg hpc hquit =>
      exact h.client (fun hover => absurd (h.idle (by rw [hpc]; rfl)) hover)
  | allocate_refuse c func arg hpc => exact h.client (fun _ => rfl)
  | allocate_grant c func arg hpc =>
      exact (hframe (create s) rfl rfl rfl).client
        (fun hover => absurd (h.idle (by rw [hpc]; rfl)) hover)
  | addTask c task hpc =>
      have hidle := h.idle (c := c) (by rw [hpc]; rfl)
      have henqueue : PostsOver (enqueue task s) := by
        refine ⟨fun hover => absurd hidle hover, ?_⟩
        intro hover
        rw [enqueue_waitdone, hidle] at hover
        rcases hover with hover | hover <;> cases hover
      exact henqueue.client (fun hover => absurd hidle hover)
  | signal_heard c task i hpc hwaiting =>
      exact (hframe (accept task (withWorker i .relock s)) rfl rfl rfl).client
        (fun _ => rfl)
  | signal_unheard c task hpc hnone =>
      exact (hframe (accept task s) rfl rfl rfl).client (fun _ => rfl)
  | terminate c hpc => exact h.client (fun _ => rfl)
  | storeQuit c hpc =>
      exact (hframe (withQuit 1 s) rfl rfl rfl).client (fun _ => rfl)
  | storeBlock c hpc =>
      exact (hframe (withBlock 0 s) rfl rfl rfl).client (fun _ => rfl)
  | broadcast c hpc =>
      exact (hframe (wakeAll s) rfl rfl rfl).client (fun _ => rfl)
  | waitdone hpc =>
      refine ⟨fun _ => hguard, ?_⟩
      intro hover
      rcases hover with hover | hover <;> cases hover
  | join_worker count hpc hlt hreturned =>
      exact hphase _ (by rw [hpc]; simp) (by simp) (by simp)
  | join_all count hpc hge =>
      exact hphase _ (by rw [hpc]; simp) (by simp) (by simp)
  | drain_task task rest hpc hqueue =>
      refine ⟨h.posts, ?_⟩
      intro hover
      change s.waitdone = .destroying ∨ s.waitdone = .returned at hover
      rw [hpc] at hover
      rcases hover with hover | hover <;> cases hover
  | drain_empty hpc hqueue =>
      exact ⟨fun _ => h.posts (by rw [hpc]; simp), fun _ => hqueue⟩
  | destroy hpc =>
      exact ⟨fun _ => h.posts (by rw [hpc]; simp),
        fun _ => h.drained (Or.inl hpc)⟩
  | _ => exact hframe _ rfl rfl rfl

/-- Every accepted task is in one place; tasks leave the queue in their order
and are executed once, and in the end each was executed or discarded. -/
structure TasksAccounted (s : Pool n) : Prop where
  onePlace : ∀ t ∈ s.accepted, s.queue.count t + held s t
    + s.executed.count t + s.discarded.count t = 1
  fifo : s.enqueued = s.taken ++ s.queue
  once : (s.executed.map Task.serial).Nodup
  ended : s.waitdone = .returned → ∀ t ∈ s.accepted,
    s.executed.count t + s.discarded.count t = 1
  discarded : s.discarded ≠ [] → s.quit = 1

theorem executed_nodup (hserials : SerialsDiffer s) (hconserved : Conserved s) :
    (s.executed.map Task.serial).Nodup := by
  have hcount : ∀ t, s.executed.count t ≤ s.enqueued.count t := by
    intro t
    have hplaces := hconserved.places t
    omega
  have honce := List.nodup_iff_count_le_one.mp hserials.nodup.of_map
  have hmem : ∀ t ∈ s.executed, t ∈ s.enqueued := by
    intro t ht
    exact List.count_pos_iff.mp
      ((List.count_pos_iff.mpr ht).trans_le (hcount t))
  apply List.Nodup.map_on
  · intro t ht u hu hserial
    exact List.inj_on_of_nodup_map hserials.nodup (hmem t ht) (hmem u hu)
      hserial
  · rw [List.nodup_iff_count_le_one]
    intro t
    exact (hcount t).trans (honce t)

theorem held_of_joined (hjoined : Joined s) (hreturned : s.waitdone = .returned)
    (t : Task) : held s t = 0 := by
  apply Finset.sum_eq_zero
  intro i _
  rw [hjoined i (by rw [hreturned]; exact i.isLt)]
  rfl

/-- No task is lost or run twice. -/
theorem tasksAccounted {s : Pool n} (hn : 0 < n)
    (hrun : Reach poolStep PostsBeforeWaitdone (Pool.initial n) s) :
    TasksAccounted s := by
  have hserials : SerialsDiffer s := reach_invariant hrun
    (serialsDiffer_initial n) (fun _ _ _ h _ => serialsDiffer_moves h)
  have hconserved : Conserved s := reach_invariant hrun (conserved_initial n)
    (fun _ _ _ h _ => conserved_moves h)
  have haccepted : AcceptedQueued s := by
    refine reach_invariant hrun ?_ (fun _ _ _ h _ => acceptedQueued_moves h)
    constructor <;> simp [Pool.initial]
  have hquit : Joined s ∧ QuitFirst s := by
    have hstart : Joined (Pool.initial n) ∧ QuitFirst (Pool.initial n) := by
      refine ⟨fun i hi => absurd hi (Nat.not_lt_zero _), ?_⟩
      constructor <;> simp [Pool.initial]
    have hstep : ∀ s a s', (Joined s ∧ QuitFirst s) →
        PostsBeforeWaitdone s a → Moves s a s' → Joined s' ∧ QuitFirst s' :=
      fun s a s' h _ hmove => ⟨joined_moves h.1 hmove,
        quitFirst_moves h.2 hn h.1 hmove⟩
    exact reach_invariant hrun hstart hstep
  have hposts : PostsOver s := by
    refine reach_invariant hrun ?_
      (fun _ _ _ h hguard hmove => postsOver_moves h hguard hmove)
    constructor <;> simp [Pool.initial]
  have hplace : ∀ t ∈ s.accepted, s.queue.count t + held s t
      + s.executed.count t + s.discarded.count t = 1 := by
    intro t ht
    rw [hconserved.places t]
    exact List.count_eq_one_of_mem hserials.nodup.of_map
      (haccepted.accepted t ht)
  refine ⟨hplace, hconserved.fifo, executed_nodup hserials hconserved, ?_,
    hquit.2.discarded⟩
  intro hreturned t ht
  have hone := hplace t ht
  rw [hposts.drained (Or.inr hreturned), held_of_joined hquit.1 hreturned,
    List.count_nil] at hone
  omega

/-- One task is executed; the other is posted while it runs and is discarded,
and `thread_pool_waitdone` returns. -/
theorem tasksAccounted_sample : ∃ s : Pool 1,
    Reach poolStep PostsBeforeWaitdone (Pool.initial 1) s ∧
      s.waitdone = .returned ∧ s.accepted = [⟨0, 7, 8⟩, ⟨1, 9, 10⟩] ∧
      s.executed = [⟨0, 7, 8⟩] ∧ s.discarded = [⟨1, 9, 10⟩] ∧
      TasksAccounted s := by
  have hstart : Reach poolStep PostsBeforeWaitdone (Pool.initial 1)
      (Pool.initial 1) := .start
  have hposted := ((((hstart.next (Action.post 0 7 8) rfl rfl).next
    (Action.testPost 0) trivial rfl).next (Action.allocate 0 true) trivial
    rfl).next (Action.addTask 0) trivial rfl).next (Action.signal 0 none)
    trivial rfl
  have hstarted := ((hposted.next (Action.testQuit 0) trivial rfl).next
    (Action.popTask 0) trivial rfl).next (Action.startTask 0) trivial rfl
  have hlate := ((((hstarted.next (Action.post 0 9 10) rfl rfl).next
    (Action.testPost 0) trivial rfl).next (Action.allocate 0 true) trivial
    rfl).next (Action.addTask 0) trivial rfl).next (Action.signal 0 none)
    trivial rfl
  have htold := (((hlate.next (Action.terminate 0) trivial rfl).next
    (Action.storeQuit 0) trivial rfl).next (Action.storeBlock 0) trivial
    rfl).next (Action.broadcast 0) trivial rfl
  have hleft := (htold.next (Action.finishTask 0) trivial rfl).next
    (Action.testQuit 0) trivial rfl
  have hwaits := hleft.next Action.waitdone
    (fun c => by cases c <;> rfl) rfl
  have hjoined := (hwaits.next Action.join trivial rfl).next Action.join
    trivial rfl
  have hdone := ((hjoined.next Action.drain trivial rfl).next Action.drain
    trivial rfl).next Action.destroy trivial rfl
  exact ⟨_, hdone, rfl, rfl, rfl, rfl, tasksAccounted (by decide) hdone⟩

end Ending

end CAdvanced
