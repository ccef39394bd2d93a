import CAdvanced.BlockArena
import CAdvanced.LinkChain

/-!
# The task queue of the thread pool

The queue of `thread_pool.c` keeps its nodes in a chain of links and the address
of the last link, a cell of the queue itself or of a node.  The nodes lie in
foreign memory: a node belongs to the queue from the call of `__add_task` until
`__pop_task` hands it out, and the queue must not touch it before or after.
-/

namespace CAdvanced

open Fallible
open LinkChain

/-- A cell that holds a node pointer. -/
inductive Link
  | head
  | next (task : Addr)
  deriving DecidableEq

/-- The links in memory; `owned` records which nodes the queue may touch. -/
structure TaskQueue where
  cell : Link → Addr
  tail : Link
  owned : List Addr

def TaskQueue.allows (s : TaskQueue) : Link → Bool
  | .head => true
  | .next task => task ∈ s.owned

def withCell (l : Link) (a : Addr) (s : TaskQueue) : TaskQueue :=
  { s with cell := Function.update s.cell l a }

def withTail (l : Link) (s : TaskQueue) : TaskQueue := { s with tail := l }

def withOwned (owned : List Addr) (s : TaskQueue) : TaskQueue :=
  { s with owned := owned }

def loadLink (l : Link) : Exec TaskQueue Addr :=
  load (fun s => if s.allows l then some (s.cell l) else none)

def storeLink (l : Link) (a : Addr) : Exec TaskQueue Unit :=
  store (fun s => s.allows l) (withCell l a)

/-- How `__taskqueue_create` leaves the links of a new queue. -/
def initLinks : Exec TaskQueue Unit := do
  storeLink .head NULL
  modify (withTail .head)

/-- `__add_task` up to the spinlock. -/
def clearTask (task : Addr) : Exec TaskQueue Unit := do
  modify (fun s => withOwned (task :: s.owned) s)
  storeLink (.next task) NULL

/-- `__add_task` under the spinlock. -/
def linkTask (task : Addr) : Exec TaskQueue Unit := do
  storeLink (← get).tail task
  modify (withTail (.next task))

def addTask (task : Addr) : Exec TaskQueue Unit := do
  clearTask task
  linkTask task

def popTask : Exec TaskQueue Addr := do
  if (← loadLink .head) = NULL then return NULL
  let task ← loadLink .head
  storeLink .head (← loadLink (.next task))
  if (← loadLink .head) = NULL then
    modify (withTail .head)
  modify (fun s => withOwned (s.owned.erase task) s)
  return task

/-- What happens to the queue and to the memory around it. -/
inductive QueueOp
  | clear (task : Addr)
  | link (task : Addr)
  | pop
  /-- Other code writes to a node that is not the queue's. -/
  | foreign (task contents : Addr)

/-- Only `__pop_task` has an answer. -/
def queueStep : QueueOp → Exec TaskQueue (Option Addr)
  | .clear task => do clearTask task; return none
  | .link task => do linkTask task; return none
  | .pop => return some (← popTask)
  | .foreign task contents => do
      modify (withCell (.next task) contents)
      return none

/-! ## The queue it should be -/

/-- The queued nodes, and those of the calls of `__add_task` that wait for the
spinlock. -/
structure Fifo where
  queue : List Addr
  waiting : List Addr

def Fifo.empty : Fifo := ⟨[], []⟩

def Fifo.nodes (q : Fifo) : List Addr := q.queue ++ q.waiting

/-- The front, or a null pointer, and what is left. -/
def Fifo.pop (q : Fifo) : Addr × Fifo :=
  match q.queue with
  | [] => (NULL, q)
  | task :: rest => (task, ⟨rest, q.waiting⟩)

def fifoStep : QueueOp → Exec Fifo (Option Addr)
  | .clear task => do
      modify (fun q => ⟨q.queue, task :: q.waiting⟩)
      return none
  | .link task => do
      modify (fun q => ⟨q.queue ++ [task], q.waiting.erase task⟩)
      return none
  | .pop => do
      let q ← get
      set q.pop.2
      return some q.pop.1
  | .foreign _ _ => return none

/-- A node is not added twice, and other code leaves the nodes alone that it
gave away. -/
def Permitted : QueueOp → Fifo → Prop
  | .clear task, q => task ≠ NULL ∧ task ∉ q.nodes
  | .link task, q => task ∈ q.waiting
  | .pop, _ => True
  | .foreign task _, q => task ∉ q.nodes

instance Permitted.decidable (op : QueueOp) (q : Fifo) :
    Decidable (Permitted op q) :=
  match op with
  | .clear task => inferInstanceAs (Decidable (task ≠ NULL ∧ task ∉ q.nodes))
  | .link task => inferInstanceAs (Decidable (task ∈ q.waiting))
  | .pop => isTrue trivial
  | .foreign task _ => inferInstanceAs (Decidable (task ∉ q.nodes))

/-- The links hold the queue: a chain that ends in a null pointer, and `tail`
is its last link. -/
structure HoldsQueue (q : Fifo) (s : TaskQueue) : Prop where
  chain : Chained s.cell Link.next NULL .head q.queue
  tail : s.tail = lastLink Link.next .head q.queue
  cleared : ∀ task ∈ q.waiting, s.cell (.next task) = NULL
  nodup : q.nodes.Nodup
  notNull : NULL ∉ q.nodes
  owned : s.owned.Perm q.nodes

section Steps

variable {q : Fifo} {s : TaskQueue} {task : Addr}

theorem cell_withCell_of_ne {k l : Link} (hne : k ≠ l) (a : Addr)
    (s : TaskQueue) : (withCell l a s).cell k = s.cell k := by
  unfold withCell
  exact Function.update_of_ne hne a s.cell

theorem head_notMem (nodes : List Addr) :
    Link.head ∉ nodes.map Link.next := by
  simp

theorem mem_map_next {nodes : List Addr} :
    Link.next task ∈ nodes.map Link.next ↔ task ∈ nodes := by
  simp

theorem HoldsQueue.allows_tail (h : HoldsQueue q s) :
    s.allows s.tail = true := by
  rw [h.tail]
  rcases List.mem_cons.mp (lastLink_mem Link.next .head q.queue) with
    hhead | hmem
  · rw [hhead]
    rfl
  · obtain ⟨a, ha, hlast⟩ := List.mem_map.mp hmem
    rw [← hlast]
    apply decide_eq_true
    rw [h.owned.mem_iff]
    exact List.mem_append_left _ ha

theorem HoldsQueue.tail_ne (h : HoldsQueue q s)
    (hnew : task ∉ q.queue) : s.tail ≠ .next task := by
  intro heq
  rw [h.tail] at heq
  have hmem := lastLink_mem Link.next .head q.queue
  rw [heq] at hmem
  rcases List.mem_cons.mp hmem with hhead | hmem
  · cases hhead
  · exact hnew (mem_map_next.mp hmem)

theorem Chained.foreign {cell : Link → Addr} {nodes : List Addr}
    (h : Chained cell Link.next NULL .head nodes) (hnew : task ∉ nodes)
    (contents : Addr) :
    Chained (Function.update cell (.next task) contents) Link.next NULL .head
      nodes := by
  apply h.congr
  intro k hk
  apply Function.update_of_ne
  intro heq
  subst heq
  rcases List.mem_cons.mp hk with hhead | hmem
  · cases hhead
  · exact hnew (mem_map_next.mp hmem)

theorem HoldsQueue.returns_init (cell : Link → Addr) (l : Link) :
    Returns initLinks ⟨cell, l, []⟩ (fun _ s => HoldsQueue .empty s) := by
  simp only [initLinks, storeLink, returns_bind, returns_store,
    returns_modify]
  refine ⟨rfl, ?_, rfl, ?_, List.nodup_nil, ?_, List.Perm.nil⟩
  · exact Function.update_self Link.head NULL cell
  · intro task htask
    cases htask
  · exact List.not_mem_nil

theorem HoldsQueue.returns_clear (h : HoldsQueue q s) (hnull : task ≠ NULL)
    (hnew : task ∉ q.nodes) :
    Returns (clearTask task) s
      (fun _ s' => HoldsQueue ⟨q.queue, task :: q.waiting⟩ s') := by
  have hqueue : task ∉ q.queue :=
    fun hmem => hnew (List.mem_append_left _ hmem)
  simp only [clearTask, storeLink, returns_bind, returns_store,
    returns_modify]
  refine ⟨decide_eq_true List.mem_cons_self, ?_, h.tail, ?_, ?_, ?_, ?_⟩
  · exact Chained.foreign h.chain hqueue NULL
  · intro a ha
    rcases List.mem_cons.mp ha with heq | hmem
    · rw [heq]
      exact Function.update_self _ _ _
    · have hne : Link.next a ≠ .next task := by
        intro heq
        cases heq
        exact hnew (List.mem_append_right _ hmem)
      exact (Function.update_of_ne hne _ _).trans (h.cleared a hmem)
  · exact List.nodup_middle.mpr (List.nodup_cons.mpr ⟨hnew, h.nodup⟩)
  · intro hmem
    rcases List.mem_cons.mp (List.perm_middle.mem_iff.mp hmem) with heq | hold
    · exact hnull heq.symm
    · exact h.notNull hold
  · exact (h.owned.cons task).trans List.perm_middle.symm

theorem HoldsQueue.returns_link (h : HoldsQueue q s)
    (hwaiting : task ∈ q.waiting) :
    Returns (linkTask task) s
      (fun _ s' => HoldsQueue ⟨q.queue ++ [task], q.waiting.erase task⟩ s')
      := by
  have hparts := List.nodup_append.mp h.nodup
  have hqueue : task ∉ q.queue :=
    fun hmem => hparts.2.2 task hmem task hwaiting rfl
  have hperm : (q.queue ++ [task] ++ q.waiting.erase task).Perm q.nodes := by
    rw [List.append_assoc]
    exact (List.perm_cons_erase hwaiting).symm.append_left q.queue
  have hnull : task ≠ NULL := by
    intro hnull
    subst hnull
    exact h.notNull (List.mem_append_right _ hwaiting)
  simp only [linkTask, storeLink, returns_bind, returns_get, returns_store,
    returns_modify]
  refine ⟨h.allows_tail, ?_, ?_, ?_, ?_, ?_, ?_⟩
  · have hlinks : (Link.head :: (q.queue ++ [task]).map Link.next).Nodup := by
      have hnodes : (q.queue ++ [task]).Nodup :=
        (List.nodup_append.mp (hperm.nodup_iff.mpr h.nodup)).1
      refine List.nodup_cons.mpr ⟨head_notMem _, ?_⟩
      exact hnodes.map (fun _ _ heq => Link.next.inj heq)
    have hchain := h.chain.append hnull hlinks (h.cleared task hwaiting)
    rw [← h.tail] at hchain
    exact hchain
  · exact (lastLink_append Link.next .head q.queue task).symm
  · intro a ha
    have hold := List.mem_of_mem_erase ha
    have hne : Link.next a ≠ s.tail := by
      refine (h.tail_ne ?_).symm
      intro hmem
      exact hparts.2.2 a hmem a hold rfl
    exact (Function.update_of_ne hne _ _).trans (h.cleared a hold)
  · exact hperm.nodup_iff.mpr h.nodup
  · intro hmem
    exact h.notNull (hperm.mem_iff.mp hmem)
  · exact h.owned.trans hperm.symm

theorem HoldsQueue.returns_add (h : HoldsQueue q s) (hnull : task ≠ NULL)
    (hnew : task ∉ q.nodes) :
    Returns (addTask task) s
      (fun _ s' => HoldsQueue ⟨q.queue ++ [task], q.waiting⟩ s') := by
  unfold addTask
  rw [returns_bind]
  apply (h.returns_clear hnull hnew).mono
  intro _ s₁ hs₁
  have hlinked := hs₁.returns_link List.mem_cons_self
  rw [List.erase_cons_head] at hlinked
  exact hlinked

theorem returns_loadHead (s : TaskQueue) (Q : Addr → TaskQueue → Prop) :
    Returns (loadLink .head) s Q ↔ Q (s.cell .head) s := by
  simp [loadLink, TaskQueue.allows]

theorem HoldsQueue.returns_pop (h : HoldsQueue q s) :
    Returns popTask s
      (fun task s' => task = q.pop.1 ∧ HoldsQueue q.pop.2 s') := by
  obtain ⟨queue, waiting⟩ := q
  unfold popTask
  simp only [returns_bind, returns_loadHead]
  cases queue with
  | nil =>
      have hempty : s.cell .head = NULL := h.chain
      rw [if_pos hempty, returns_pure]
      exact ⟨rfl, h⟩
  | cons task rest =>
      obtain ⟨hfirst, hnull, hrest⟩ := h.chain
      have hallows : s.allows (.next task) = true := by
        apply decide_eq_true
        rw [h.owned.mem_iff]
        exact List.mem_cons_self
      have hnext : Chained (withCell .head (s.cell (.next task)) s).cell
          Link.next NULL .head rest :=
        h.chain.skip (head_notMem rest)
      have hcleared : ∀ a ∈ waiting,
          (withCell .head (s.cell (.next task)) s).cell (.next a) = NULL := by
        intro a ha
        rw [cell_withCell_of_ne (by simp)]
        exact h.cleared a ha
      have hnodup : (rest ++ waiting).Nodup := (List.nodup_cons.mp h.nodup).2
      have hnotNull : NULL ∉ rest ++ waiting :=
        fun hmem => h.notNull (List.mem_cons_of_mem task hmem)
      have howned : (s.owned.erase task).Perm (rest ++ waiting) := by
        have herase := h.owned.erase task
        simpa [Fifo.nodes] using herase
      rw [hfirst, if_neg hnull, returns_bind, returns_loadHead, hfirst]
      simp only [returns_bind, returns_loadHead, storeLink, returns_store]
      simp only [loadLink, returns_load, hallows, reduceIte,
        Option.some.injEq, exists_eq_left']
      refine ⟨rfl, ?_⟩
      -- The tail goes back to the queue itself when the last node leaves.
      cases rest with
      | nil =>
          have hempty : (withCell .head (s.cell (.next task)) s).cell .head
              = NULL := hnext
          rw [if_pos hempty]
          simp only [returns_bind, returns_modify, returns_pure]
          exact ⟨rfl, hnext, rfl, hcleared, hnodup, hnotNull, howned⟩
      | cons b rest =>
          have hfull : (withCell .head (s.cell (.next task)) s).cell .head
              ≠ NULL := by
            rw [hnext.1]
            exact hnext.2.1
          rw [if_neg hfull]
          simp only [returns_bind, returns_modify, returns_pure]
          exact ⟨rfl, hnext, h.tail, hcleared, hnodup, hnotNull, howned⟩

theorem HoldsQueue.pop_eq_null_iff (h : HoldsQueue q s) :
    q.pop.1 = NULL ↔ q.queue = [] := by
  obtain ⟨queue, waiting⟩ := q
  cases queue with
  | nil => exact iff_of_true rfl rfl
  | cons task rest =>
      refine iff_of_false ?_ (List.cons_ne_nil task rest)
      intro hnull
      apply h.notNull
      rw [← hnull]
      exact List.mem_cons_self

theorem HoldsQueue.foreign (h : HoldsQueue q s) (hnew : task ∉ q.nodes)
    (contents : Addr) : HoldsQueue q (withCell (.next task) contents s) := by
  refine ⟨?_, h.tail, ?_, h.nodup, h.notNull, h.owned⟩
  · exact Chained.foreign h.chain
      (fun hmem => hnew (List.mem_append_left _ hmem)) contents
  · intro a ha
    rw [cell_withCell_of_ne, h.cleared a ha]
    intro heq
    cases heq
    exact hnew (List.mem_append_right _ ha)

/-- One operation does on the links what it does on the queue. -/
theorem HoldsQueue.sameOutcome (h : HoldsQueue q s) (op : QueueOp)
    (hpermitted : Permitted op q) :
    SameOutcome HoldsQueue ((fifoStep op).run q) ((queueStep op).run s) := by
  cases op with
  | clear task =>
      obtain ⟨_, s', hrun, hs'⟩ := h.returns_clear hpermitted.1 hpermitted.2
      rw [queueStep, run_bind_of_ok hrun]
      exact .returned none _ s' hs'
  | link task =>
      obtain ⟨_, s', hrun, hs'⟩ := h.returns_link hpermitted
      rw [queueStep, run_bind_of_ok hrun]
      exact .returned none _ s' hs'
  | pop =>
      obtain ⟨task, s', hrun, rfl, hs'⟩ := h.returns_pop
      rw [queueStep, run_bind_of_ok hrun]
      exact .returned (some q.pop.1) _ s' hs'
  | foreign task contents =>
      exact .returned none _ _ (h.foreign hpermitted contents)

end Steps

theorem exists_fifoStep (op : QueueOp) (q : Fifo) :
    ∃ answer q', (fifoStep op).run q = .ok (answer, q') := by
  cases op <;> exact ⟨_, _, rfl⟩

theorem exists_runAll_fifoStep (ops : List QueueOp) (q : Fifo) :
    ∃ answers q', (runAll fifoStep ops).run q = .ok (answers, q') := by
  induction ops generalizing q with
  | nil => exact ⟨[], q, rfl⟩
  | cons op rest ih =>
      obtain ⟨answer, q₁, hop⟩ := exists_fifoStep op q
      obtain ⟨answers, q₂, hrest⟩ := ih q₁
      refine ⟨answer :: answers, q₂, ?_⟩
      rw [runAll, run_bind_of_ok hop, run_bind_of_ok hrest]
      rfl

/-- Over every run the links hold the queue and `__pop_task` answers with its
front, a null pointer exactly when it is empty.  No access leaves the queue for
a node outside of it. -/
theorem taskQueue_refines {ops : List QueueOp}
    (hpermitted : RunMeets fifoStep Permitted ops .empty)
    (cell : Link → Addr) (l : Link) :
    Returns (do initLinks; runAll queueStep ops) ⟨cell, l, []⟩
      (fun answers s => ∃ q,
        (runAll fifoStep ops).run .empty = .ok (answers, q) ∧
          HoldsQueue q s ∧
          Returns popTask s (fun task _ => task = NULL ↔ q.queue = [])) := by
  rw [returns_bind]
  apply (HoldsQueue.returns_init cell l).mono
  intro _ s hs
  have houtcome : SameOutcome HoldsQueue ((runAll fifoStep ops).run .empty)
      ((runAll queueStep ops).run s) :=
    runAll_sameOutcome (fun _ => True) Permitted
      (fun op q t _ ht hop => ht.sameOutcome op hop) (fun _ _ => trivial) hs
      hpermitted
  obtain ⟨answers, q, hspec⟩ := exists_runAll_fifoStep ops .empty
  rw [hspec] at houtcome ⊢
  generalize hrun : (runAll queueStep ops).run s = outcome at houtcome
  cases houtcome with
  | returned _ _ t ht =>
      refine ⟨answers, t, hrun, q, rfl, ht, ?_⟩
      apply ht.returns_pop.mono
      intro task _ hpop
      rw [hpop.1, ht.pop_eq_null_iff]

/-- A node comes back after it left as the last one. -/
def sampleOps : List QueueOp :=
  [.clear 1, .link 1, .pop, .foreign 1 2, .pop, .clear 2, .clear 1, .link 1,
    .link 2, .pop]

theorem taskQueue_refines_sample :
    Returns (do initLinks; runAll queueStep sampleOps) ⟨fun _ => 0, .head, []⟩
      (fun answers s => ∃ q,
        (runAll fifoStep sampleOps).run .empty = .ok (answers, q) ∧
          HoldsQueue q s ∧
          Returns popTask s (fun task _ => task = NULL ↔ q.queue = [])) :=
  taskQueue_refines (by decide) _ _

end CAdvanced
