import CAdvanced.FrontEnds
import CAdvanced.TransitionSystem

/-!
# The epoll echo server of Chapter 2

The event loop of `select-poll-epoll/server.c`.  Of a connection only its
descriptor matters, so what is read and sent back is left out.  The events of a
batch that are still to come are part of the state, with the position `i` of
the next one.
-/

namespace CAdvanced

open Transition

/-- The descriptors that `socket` and `epoll_create` return. -/
structure Sockets where
  sockfd : ℕ
  epfd : ℕ
  sockfd_pos : 2 < sockfd
  epfd_pos : 2 < epfd
  distinct : sockfd ≠ epfd

/-- An entry of `events`: the descriptor, and whether `EPOLLIN` is set. -/
abbrev ReadyEvent := ℕ × Bool

abbrev maxEvents : ℕ := 1024

structure EchoServer where
  opened : Finset ℕ
  registered : Finset ℕ
  pending : List ReadyEvent
  i : ℕ

namespace EchoServer

/-- The listening socket is registered, and nothing else. -/
def initial (d : Sockets) : EchoServer where
  opened := {0, 1, 2, d.sockfd, d.epfd}
  registered := {d.sockfd}
  pending := []
  i := 0

section Updates

variable (d : Sockets)

/-- A closed descriptor leaves the epoll set, and the set goes with `epfd`. -/
@[simps] def close (fd : ℕ) (s : EchoServer) : EchoServer :=
  { s with
    opened := s.opened.erase fd
    registered := if fd = d.epfd then ∅ else s.registered.erase fd }

/-- `epoll_ctl` with `EPOLL_CTL_DEL`. -/
@[simps] def unregister (fd : ℕ) (s : EchoServer) : EchoServer :=
  { s with registered := s.registered.erase fd }

/-- `accept` hands out a descriptor, and `epoll_ctl` adds it. -/
@[simps] def connect (clientfd : ℕ) (s : EchoServer) : EchoServer :=
  { s with
    opened := insert clientfd s.opened
    registered := insert clientfd s.registered }

@[simps] def advance (rest : List ReadyEvent) (s : EchoServer) : EchoServer :=
  { s with pending := rest, i := s.i + 1 }

/-- `break` leaves the batch. -/
@[simps] def leaveBatch (s : EchoServer) : EchoServer :=
  { s with pending := [] }

end Updates

/-! ## The event loop -/

inductive Action
  /-- `epoll_wait` fills `events`. -/
  | wait (batch : List ReadyEvent)
  /-- The next event is one of `sockfd`; `accept` fails, or returns a
  descriptor. -/
  | accept (clientfd : Option ℕ)
  /-- The next event is readable, and `recv` returns. -/
  | input (r : Received)
  /-- The next event is not readable. -/
  | skip

def echoStep (d : Sockets) (s : EchoServer) : Action → Option EchoServer
  | .wait batch =>
      if s.pending = [] ∧ batch.length ≤ maxEvents ∧
          ∀ e ∈ batch, e.1 ∈ s.registered then
        some { s with pending := batch, i := 0 }
      else none
  | .accept clientfd =>
      match s.pending with
      | [] => none
      | (connfd, _) :: rest =>
          if d.sockfd = connfd then
            match clientfd with
            | none => some (s.advance rest)
            | some fd =>
                if fd ∈ s.opened then none
                else some ((s.connect fd).advance rest)
          else none
  | .input r =>
      match s.pending with
      | (connfd, true) :: rest =>
          if d.sockfd = connfd then none
          else if r.count = 0 then
            -- the position of the event is closed, not its descriptor
            some (((s.unregister connfd).close d s.i).leaveBatch)
          else some (s.advance rest)
      | _ => none
  | .skip =>
      match s.pending with
      | (connfd, false) :: rest =>
          if d.sockfd = connfd then none else some (s.advance rest)
      | _ => none

/-- The connection whose `recv` returns 0 in this step. -/
def endedBy (s : EchoServer) : Action → Option ℕ
  | .input r =>
      if r.count = 0 then s.pending.head?.map Prod.fst else none
  | _ => none

/-- The open descriptors of clients. -/
def clients (d : Sockets) (s : EchoServer) : Finset ℕ :=
  s.opened \ {0, 1, 2, d.sockfd, d.epfd}

/-- What one step may do to the descriptors. -/
structure StepKeeps (d : Sockets) (s : EchoServer) (a : Action)
    (s' : EchoServer) : Prop where
  closed : ∀ fd ∈ s.opened, fd ∉ s'.opened → s.endedBy a = some fd
  ended : ∀ fd ∈ s.endedBy a, fd ∉ s'.registered ∧ fd ∉ s'.opened
  atTop : s'.pending = [] → s'.registered.erase d.sockfd = s'.clients d
  kept : {0, 1, 2, d.sockfd} ⊆ s'.opened

def DescriptorsKept (d : Sockets) (s : EchoServer) (a : Action) : Prop :=
  ∀ s' ∈ echoStep d s a, StepKeeps d s a s'

/-- A connection that ends stands in the batch at its own descriptor. -/
def EndsAtOwn (s : EchoServer) (a : Action) : Prop :=
  ∀ fd ∈ s.endedBy a, fd = s.i

instance (s : EchoServer) (a : Action) : Decidable (s.EndsAtOwn a) :=
  inferInstanceAs (Decidable (∀ fd ∈ s.endedBy a, fd = s.i))

/-! ## What a step does -/

/-- The four ways in which the loop goes on. -/
inductive Steps (d : Sockets) (s : EchoServer) : Action → EchoServer → Prop
  | waited {batch : List ReadyEvent} (htop : s.pending = [])
      (hready : ∀ e ∈ batch, e.1 ∈ s.registered) :
      Steps d s (.wait batch) { s with pending := batch, i := 0 }
  | accepted {fd : ℕ} {e : ReadyEvent} {rest : List ReadyEvent}
      (hpending : s.pending = e :: rest) (hfresh : fd ∉ s.opened) :
      Steps d s (.accept (some fd)) ((s.connect fd).advance rest)
  | passed {a : Action} {e : ReadyEvent} {rest : List ReadyEvent}
      (hpending : s.pending = e :: rest) (hgoes : s.endedBy a = none) :
      Steps d s a (s.advance rest)
  | ended {r : Received} {connfd : ℕ} {rest : List ReadyEvent}
      (hpending : s.pending = (connfd, true) :: rest)
      (hclient : connfd ≠ d.sockfd) (hcount : r.count = 0) :
      Steps d s (.input r) (((s.unregister connfd).close d s.i).leaveBatch)

theorem steps_of_echoStep {d : Sockets} {s s' : EchoServer} {a : Action}
    (hstep : echoStep d s a = some s') : Steps d s a s' := by
  cases a with
  | wait batch =>
      simp only [echoStep] at hstep
      split_ifs at hstep with hready
      cases hstep
      exact .waited hready.1 hready.2.2
  | accept clientfd =>
      simp only [echoStep] at hstep
      split at hstep
      next => cases hstep
      next connfd _ rest hpending =>
        split_ifs at hstep
        cases clientfd with
        | none =>
            cases hstep
            exact .passed hpending rfl
        | some fd =>
            simp only at hstep
            split_ifs at hstep with hopened
            cases hstep
            exact .accepted hpending hopened
  | input r =>
      simp only [echoStep] at hstep
      split at hstep
      next connfd rest hpending =>
        split_ifs at hstep with hsock hcount
        · cases hstep
          exact .ended hpending (fun h => hsock h.symm) hcount
        · cases hstep
          exact .passed hpending (by simp [endedBy, hcount])
      next => cases hstep
  | skip =>
      simp only [echoStep] at hstep
      split at hstep
      next connfd rest hpending =>
        split_ifs at hstep
        cases hstep
        exact .passed hpending rfl
      next => cases hstep

/-! ## The invariants -/

/-- What is registered, and what the batch names, is open. -/
structure Opened (s : EchoServer) : Prop where
  registered : s.registered ⊆ s.opened
  pending : ∀ e ∈ s.pending, e.1 ∈ s.opened

/-- The sockets are open, and the clients are what else is registered. -/
structure Kept (d : Sockets) (s : EchoServer) : Prop where
  fixed : {0, 1, 2, d.sockfd, d.epfd} ⊆ s.opened
  clients : s.registered.erase d.sockfd = s.clients d
  pending : ∀ e ∈ s.pending, e.1 ∈ s.registered

section Runs

variable {d : Sockets} {s s' t : EchoServer} {a : Action} {fd : ℕ}

theorem opened_initial : Opened (initial d) := by
  constructor
  · simp [initial]
  · simp [initial]

theorem Opened.step (h : Opened s) (hstep : echoStep d s a = some s') :
    Opened s' := by
  cases steps_of_echoStep hstep with
  | waited htop hready =>
      exact ⟨h.registered, fun e he => h.registered (hready e he)⟩
  | @accepted fd e rest hpending hfresh =>
      refine ⟨Finset.insert_subset_insert fd h.registered, ?_⟩
      intro e' he'
      apply Finset.mem_insert_of_mem
      exact h.pending e' (by rw [hpending]; exact List.mem_cons_of_mem e he')
  | @passed a e rest hpending hgoes =>
      refine ⟨h.registered, ?_⟩
      intro e' he'
      exact h.pending e' (by rw [hpending]; exact List.mem_cons_of_mem e he')
  | @ended r connfd rest hpending hclient hcount =>
      refine ⟨?_, fun e he => absurd he List.not_mem_nil⟩
      simp only [leaveBatch_registered, close_registered,
        unregister_registered, leaveBatch_opened, close_opened,
        unregister_opened]
      split_ifs
      · exact Finset.empty_subset _
      · exact Finset.erase_subset_erase s.i
          ((Finset.erase_subset connfd s.registered).trans h.registered)

/-- A connection that ends is only closed at its own position. -/
theorem endsAtOwn_of_kept (h : Opened s) (hkept : DescriptorsKept d s a)
    (hstep : echoStep d s a = some s') : EndsAtOwn s a := by
  intro fd hfd
  have hclosed := ((hkept s' hstep).ended fd hfd).2
  cases steps_of_echoStep hstep with
  | waited => cases hfd
  | accepted => cases hfd
  | passed hpending hgoes =>
      rw [hgoes] at hfd
      cases hfd
  | @ended r connfd rest hpending hclient hcount =>
      have hconn : fd = connfd := by
        simpa [endedBy, hcount, hpending, eq_comm] using hfd
      subst hconn
      have hopened : fd ∈ s.opened :=
        h.pending (fd, true) (by rw [hpending]; exact List.mem_cons_self)
      by_contra hne
      exact hclosed (Finset.mem_erase.mpr ⟨hne, hopened⟩)

theorem kept_initial : Kept d (initial d) where
  fixed := Finset.Subset.refl _
  clients := by simp [initial, EchoServer.clients]
  pending := by simp [initial]

theorem endedBy_ended {r : Received} {connfd : ℕ} {rest : List ReadyEvent}
    (hpending : s.pending = (connfd, true) :: rest) (hcount : r.count = 0) :
    s.endedBy (.input r) = some connfd := by
  simp [endedBy, hcount, hpending]

/-- A connection in the batch is open, and it is none of the sockets. -/
theorem Kept.client {connfd : ℕ} {rest : List ReadyEvent}
    (h : Kept d s) (hpending : s.pending = (connfd, true) :: rest)
    (hclient : connfd ≠ d.sockfd) :
    connfd ∈ s.opened ∧ connfd ∉ ({0, 1, 2, d.sockfd, d.epfd} : Finset ℕ) := by
  have hregistered : connfd ∈ s.registered :=
    h.pending (connfd, true) (by rw [hpending]; exact List.mem_cons_self)
  have hmem : connfd ∈ s.clients d := by
    rw [← h.clients]
    exact Finset.mem_erase.mpr ⟨hclient, hregistered⟩
  exact Finset.mem_sdiff.mp hmem

theorem Kept.accepted {e : ReadyEvent} {rest : List ReadyEvent}
    (h : Kept d s) (hpending : s.pending = e :: rest)
    (hfresh : fd ∉ s.opened) : Kept d ((s.connect fd).advance rest) := by
  have hnot : fd ∉ ({0, 1, 2, d.sockfd, d.epfd} : Finset ℕ) :=
    fun hmem => hfresh (h.fixed hmem)
  have hne : d.sockfd ≠ fd := by
    rintro rfl
    exact hnot (by simp)
  refine ⟨h.fixed.trans (Finset.subset_insert fd s.opened), ?_, ?_⟩
  · simp only [EchoServer.clients, advance_registered, connect_registered,
      advance_opened, connect_opened]
    rw [Finset.erase_insert_of_ne hne.symm, Finset.insert_sdiff_of_notMem _ hnot,
      h.clients]
    rfl
  · intro e' he'
    apply Finset.mem_insert_of_mem
    exact h.pending e' (by rw [hpending]; exact List.mem_cons_of_mem e he')

theorem Kept.ended {connfd : ℕ} {rest : List ReadyEvent}
    (h : Kept d s) (hpending : s.pending = (connfd, true) :: rest)
    (hclient : connfd ≠ d.sockfd) (hown : connfd = s.i) :
    Kept d (((s.unregister connfd).close d s.i).leaveBatch) := by
  obtain ⟨-, hnot⟩ := h.client hpending hclient
  have hne : connfd ≠ d.epfd := by
    rintro rfl
    exact hnot (by simp)
  rw [← hown]
  refine ⟨?_, ?_, fun e he => absurd he List.not_mem_nil⟩
  · exact Finset.subset_erase.mpr ⟨h.fixed, hnot⟩
  · simp only [EchoServer.clients, leaveBatch_registered, close_registered,
      unregister_registered, leaveBatch_opened, close_opened,
      unregister_opened, if_neg hne, Finset.erase_idem]
    rw [Finset.erase_right_comm, h.clients, EchoServer.clients,
      Finset.erase_sdiff_comm]

theorem Kept.step (h : Kept d s) (hown : EndsAtOwn s a)
    (hstep : echoStep d s a = some s') : Kept d s' := by
  cases steps_of_echoStep hstep with
  | waited htop hready => exact ⟨h.fixed, h.clients, hready⟩
  | accepted hpending hfresh => exact h.accepted hpending hfresh
  | @passed a e rest hpending hgoes =>
      refine ⟨h.fixed, h.clients, ?_⟩
      intro e' he'
      exact h.pending e' (by rw [hpending]; exact List.mem_cons_of_mem e he')
  | @ended r connfd rest hpending hclient hcount =>
      have hat := hown connfd (endedBy_ended hpending hcount)
      exact h.ended hpending hclient hat

/-- Only the descriptor of a connection that ends is closed. -/
theorem Kept.stepKeeps (h : Kept d s) (hown : EndsAtOwn s a)
    (hstep : echoStep d s a = some s') : StepKeeps d s a s' := by
  have h' := h.step hown hstep
  have hsockets : ({0, 1, 2, d.sockfd} : Finset ℕ) ⊆ s'.opened := by
    refine Finset.Subset.trans ?_ h'.fixed
    intro fd hfd
    simp only [Finset.mem_insert, Finset.mem_singleton] at hfd ⊢
    tauto
  refine ⟨?_, ?_, fun _ => h'.clients, hsockets⟩
  · intro fd hopened hclosed
    cases steps_of_echoStep hstep with
    | waited => exact absurd hopened hclosed
    | accepted => exact absurd (Finset.mem_insert_of_mem hopened) hclosed
    | passed => exact absurd hopened hclosed
    | @ended r connfd rest hpending hclient hcount =>
        have hended := endedBy_ended hpending hcount
        have hfd : fd = s.i := by
          by_contra hne
          exact hclosed (Finset.mem_erase.mpr ⟨hne, hopened⟩)
        rw [hended, hown connfd hended, hfd]
  · intro fd hfd
    have hat := hown fd hfd
    cases steps_of_echoStep hstep with
    | waited => cases hfd
    | accepted => cases hfd
    | passed hpending hgoes =>
        rw [hgoes] at hfd
        cases hfd
    | @ended r connfd rest hpending hclient hcount =>
        rw [endedBy_ended hpending hcount, Option.mem_some_iff] at hfd
        subst hfd
        constructor
        · simp only [leaveBatch_registered, close_registered,
            unregister_registered]
          split_ifs
          · exact Finset.notMem_empty _
          · rw [← hat, Finset.erase_idem]
            exact Finset.notMem_erase _ _
        · simp only [leaveBatch_opened, close_opened, unregister_opened]
          rw [← hat]
          exact Finset.notMem_erase _ _

theorem heeds_endsAtOwn {actions : List Action}
    (hrun : execute (echoStep d) actions (initial d) = some t)
    (hkept : Heeds (echoStep d) (DescriptorsKept d) actions (initial d)) :
    Heeds (echoStep d) EndsAtOwn actions (initial d) := by
  refine heeds_of_invariant ?_ ?_ opened_initial hkept hrun
  · intro s a s' h _ hstep
    exact h.step hstep
  · intro s a s' h hkept hstep
    exact endsAtOwn_of_kept h hkept hstep

/-- The descriptors are kept in every step, exactly in the runs in which each
connection that ends stands in the batch at its own descriptor. -/
theorem descriptorsKept_iff {actions : List Action}
    (hrun : execute (echoStep d) actions (initial d) = some t) :
    Heeds (echoStep d) (DescriptorsKept d) actions (initial d) ↔
      Heeds (echoStep d) EndsAtOwn actions (initial d) := by
  constructor
  · intro hkept
    exact heeds_endsAtOwn hrun hkept
  · intro hown
    refine heeds_of_invariant ?_ ?_ kept_initial hown hrun
    · intro s a s' h hown hstep
      exact h.step hown hstep
    · intro s a s' h hown hstep t ht
      exact h.stepKeeps hown ht

end Runs

/-- `socket` returns 3 and `epoll_create` 4. -/
def sampleSockets : Sockets where
  sockfd := 3
  epfd := 4
  sockfd_pos := by decide
  epfd_pos := by decide
  distinct := by decide

def acceptClient (fd : ℕ) : List Action :=
  [.wait [(3, true)], .accept (some fd)]

/-- Six clients connect; the first one ends, as the last of a batch. -/
def orderedSession : List Action :=
  [5, 6, 7, 8, 9, 10].flatMap acceptClient ++
    [.wait [(6, true), (7, true), (8, false), (9, true), (10, true),
      (5, true)],
      .input (.data [104]), .input (.data [105]), .skip, .input .failed,
      .input (.data [106]), .input .closed]

theorem descriptorsKept_iff_sample :
    Heeds (echoStep sampleSockets) (DescriptorsKept sampleSockets)
      orderedSession (initial sampleSockets) := by
  have hsome : (execute (echoStep sampleSockets) orderedSession
      (initial sampleSockets)).isSome = true := by
    decide +kernel
  obtain ⟨s, hrun⟩ := Option.isSome_iff_exists.mp hsome
  exact (descriptorsKept_iff hrun).mpr (by decide +kernel)

/-- The only client ends. -/
def lonelySession : List Action :=
  acceptClient 5 ++ [.wait [(5, true)], .input .closed]

/-- Then `close(0)` closes the standard input, and the client stays open. -/
theorem descriptorsKept_lonely :
    (∃ s, execute (echoStep sampleSockets) lonelySession
        (initial sampleSockets) = some s ∧
      0 ∉ s.opened ∧ 5 ∈ s.opened ∧ 5 ∉ s.registered) ∧
      ¬ Heeds (echoStep sampleSockets) (DescriptorsKept sampleSockets)
        lonelySession (initial sampleSockets) := by
  have hend : (execute (echoStep sampleSockets) lonelySession
      (initial sampleSockets)).any (fun s =>
        0 ∉ s.opened ∧ 5 ∈ s.opened ∧ 5 ∉ s.registered) = true := by
    decide +kernel
  obtain ⟨s, hrun, hs⟩ := (Option.any_eq_true _ _).mp hend
  refine ⟨⟨s, hrun, by simpa using hs⟩, ?_⟩
  intro hkept
  exact absurd (heeds_endsAtOwn hrun hkept) (by decide +kernel)

end EchoServer

end CAdvanced
