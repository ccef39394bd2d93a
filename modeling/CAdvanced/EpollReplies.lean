import CAdvanced.CoroutineReplies
import CAdvanced.EpollConnections

/-!
# What the clients of the epoll server see

The replies are those of the three maps to the requests in the order in which
they are received, as they are behind the other front end.  A connection is
handed each of its replies once, before its next request is received; but what
a `send` does not take of a reply is lost.
-/

namespace CAdvanced

open Fallible
open KeyValue
open Transition
open Server

namespace EpollServer

/-! ## The order of requests -/

/-- The requests of all connections, in the order in which they come in. -/
abbrev requests (P : Platform) : List EpollAction → EpollServer →
    List CString :=
  observed (epollStep P) (fun s a => (s.asked a).toList)

abbrev replies (P : Platform) : List EpollAction → EpollServer →
    List (List UInt8) :=
  observed (epollStep P) (fun s a => (replied P s a).toList)

section Order

variable {P : Platform} {m : Stores}

theorem Serving.runs (hP : P.Succeeds) {s t : EpollServer}
    (h : Serving P s m) {actions : List EpollAction}
    (hheeds : Heeds (epollStep P) (Permits P) actions s)
    (hrun : execute (epollStep P) actions s = some t) :
    replies P actions s = (specRun protocolSpec (requests P actions s)
        m).1.map CString.bytes ∧
      Serving P t (specRun protocolSpec (requests P actions s) m).2 := by
  apply observed_specRun protocolSpec CString.bytes asked (replied P)
    (Serving P) ?_ h hheeds hrun
  intro s a s' m hserving hpermits hstep
  have hturns := hserving.step hP hpermits hstep
  exact ⟨(hturns.answers hP hserving.holds hpermits).1,
    hserving.next hP hpermits hstep⟩

end Order

/-! ## What is sent -/

/-- What `send_cb` hands to `send`. -/
def toSend (fd : ℕ) (s : EpollServer) : List UInt8 :=
  (s.connectionList fd).item.wbuffer.take
    (s.connectionList fd).item.wlength.toNat

/-- The reply that a connection still waits for. -/
def pending (fd : ℕ) (s : EpollServer) : List UInt8 :=
  if s.watched fd = some .output then s.toSend fd else []

/-- The descriptor of the next event is this one. -/
def isNext (fd : ℕ) (s : EpollServer) : Prop :=
  s.events.head?.map EpollEvent.fd = some fd

instance (fd : ℕ) (s : EpollServer) : Decidable (isNext fd s) :=
  inferInstanceAs (Decidable (_ = _))

/-- What a connection is replied in a step. -/
def made (P : Platform) (fd : ℕ) (s : EpollServer) (a : EpollAction) :
    List UInt8 :=
  if isNext fd s then (replied P s a).getD [] else []

/-- What a step hands to `send` for a connection. -/
def handed (fd : ℕ) (s : EpollServer) : EpollAction → List UInt8
  | .handle (.send _) => if isNext fd s then s.toSend fd else []
  | _ => []

/-- What the kernel takes of it. -/
def taken (fd : ℕ) (s : EpollServer) : EpollAction → List UInt8
  | .handle (.send ret) =>
      if isNext fd s then (s.toSend fd).take ret.toNat else []
  | _ => []

section Sending

variable {P : Platform} {s s' : EpollServer} {a : EpollAction} {fd : ℕ}
  {r : Received}

/-- The reply stands at the front of the buffer, as long as `wlength` says. -/
theorem yields_serveReceived (s : Server) :
    Yields (serveReceived P r) s (fun reply t =>
      reply = t.item.wbuffer.take t.item.wlength.toNat) := by
  have hsend : ∀ t : Server, Yields sendReply t (fun reply t' =>
      reply = t'.item.wbuffer.take t'.item.wlength.toNat) := by
    intro t
    apply yields_bind
    apply yields_get
    exact yields_pure rfl
  apply yields_bind
  intro _ s₁ _
  apply yields_bind
  intro _ s₂ _
  apply yields_bind
  intro _ s₃ _
  apply yields_bind
  intro _ s₄ _
  exact hsend s₄

theorem pending_of_input (h : s.watched fd = some .input) :
    pending fd s = [] := by
  rw [pending, if_neg (by rw [h]; simp)]

theorem pending_of_unwatched (h : s.watched fd = none) :
    pending fd s = [] := by
  rw [pending, if_neg (by rw [h]; simp)]

theorem pending_of_output (h : s.watched fd = some .output) :
    pending fd s = s.toSend fd := by
  rw [pending, if_pos h]

/-- A connection whose entry and interest stay is owed what it was owed. -/
theorem pending_of_same (hwatched : s'.watched fd = s.watched fd)
    (hentry : s'.connectionList fd = s.connectionList fd) :
    pending fd s' = pending fd s := by
  rw [pending, pending, toSend, toSend, hwatched, hentry]

theorem isNext_cons {e : EpollEvent} {rest : List EpollEvent}
    (hevents : s.events = e :: rest) : isNext fd s ↔ e.fd = fd := by
  simp [isNext, hevents]

theorem taken_prefix : taken fd s a <+: handed fd s a := by
  cases a with
  | handle result =>
      cases result with
      | send ret =>
          unfold taken handed
          split_ifs
          · exact List.take_prefix _ _
          · exact List.prefix_rfl
      | _ => exact List.prefix_rfl
  | _ => exact List.prefix_rfl

/-- A reply is handed to `send` before the connection is replied again. -/
theorem Turns.balance (h : Tabled s) (hturns : Turns P s a s') :
    pending fd s ++ made P fd s a = handed fd s a ++ pending fd s' := by
  have hquiet : ∀ {a : EpollAction} {s'' : EpollServer},
      replied P s a = none → handed fd s a = [] → pending fd s'' = pending fd s →
      pending fd s ++ made P fd s a = handed fd s a ++ pending fd s'' := by
    intro a s'' hreplied hhanded hpending
    rw [made, hreplied, hhanded, hpending, Option.getD_none, ite_self,
      List.append_nil, List.nil_append]
  cases hturns with
  | @refused sock =>
      refine hquiet rfl rfl ?_
      cases sock <;> exact pending_of_same rfl rfl
  | @listening x ep hphase =>
      have hunwatched := (h.asleep (by simp [hphase])).2
      refine hquiet rfl rfl ?_
      rw [pending_of_unwatched (hunwatched fd)]
      by_cases hx : fd = x
      · cases ep with
        | none =>
            exact pending_of_unwatched (by simp [EpollServer.listening, hunwatched])
        | some ep => exact pending_of_input (by simp [EpollServer.listening, hx])
      · apply pending_of_unwatched
        cases ep <;> simp [EpollServer.listening, hx, hunwatched]
  | waited => exact hquiet rfl rfl (pending_of_same rfl rfl)
  | passed hevents hresult =>
      rcases hresult with rfl | rfl
      · exact hquiet rfl rfl (pending_of_same rfl rfl)
      · exact hquiet rfl rfl (pending_of_same rfl rfl)
  | @accepted e rest x hevents hlistern hwatched hx hfresh =>
      refine hquiet rfl rfl ?_
      by_cases hne : fd = x
      · have hunwatched : s.watched fd = none := by
          by_contra hsome
          apply hfresh
          rw [← hne]
          exact (h.usable fd (Option.isSome_iff_ne_none.mpr hsome)).1
        rw [pending_of_unwatched hunwatched]
        exact pending_of_input (by simp [EpollServer.accepted, hne])
      · exact pending_of_same (by simp [EpollServer.accepted, hne])
          (by simp [EpollServer.accepted, hne])
  | @closed e rest r hevents hclient hwatched hcount =>
      refine hquiet (if_pos hcount) rfl ?_
      by_cases hne : fd = e.fd
      · subst hne
        rw [pending_of_input hwatched]
        exact pending_of_unwatched (by simp)
      · exact pending_of_same (by simp [hne]) rfl
  | @served e rest r reply store hevents hclient hwatched hcount hrun =>
      have hreply := yields_serveReceived (P := P) (itemAt e.fd s) reply store
        hrun
      have hreplied : replied P s (.handle (.recv r)) = some reply := by
        simp only [replied, hcount, reduceIte, hevents, List.head?_cons,
          Option.bind_some, hrun]
        rfl
      rw [made, hreplied, Option.getD_some]
      simp only [isNext_cons hevents]
      by_cases hne : e.fd = fd
      · subst hne
        rw [if_pos rfl, pending_of_input hwatched,
          pending_of_output (by simp [EpollServer.served])]
        simp [handed, toSend, EpollServer.served, hreply]
      · have hne' : fd ≠ e.fd := fun heq => hne heq.symm
        rw [if_neg hne, List.append_nil]
        exact (pending_of_same (by simp [EpollServer.served, hne'])
          (by simp [EpollServer.served, hne'])).symm
  | @sent e rest ret hevents hclient hwatched =>
      have hreplied : made P fd s (.handle (.send ret)) = [] := by
        rw [made]
        exact ite_self _
      rw [hreplied, List.append_nil, handed]
      simp only [isNext_cons hevents]
      by_cases hne : e.fd = fd
      · subst hne
        rw [if_pos rfl, pending_of_output hwatched,
          pending_of_input (by simp), List.append_nil]
      · have hne' : fd ≠ e.fd := fun heq => hne heq.symm
        rw [if_neg hne, List.nil_append]
        apply Eq.symm
        exact pending_of_same (by simp [hne']) rfl

/-- Every reply is handed to `send` once, before the next request of its
connection is received; and the kernel takes all of them exactly if it takes
all of what it is handed each time. -/
theorem epollServer_sends (P : Platform) (hP : P.Succeeds) (store : Server)
    (hstore : ∃ m, ServerHolds P store m) :
    ∀ actions t fd, Heeds (epollStep P) (Permits P) actions (start store) →
      execute (epollStep P) actions (start store) = some t →
      observed (epollStep P) (made P fd) actions (start store) =
          observed (epollStep P) (handed fd) actions (start store) ++
            pending fd t ∧
        (observed (epollStep P) (taken fd) actions (start store) =
            observed (epollStep P) (handed fd) actions (start store) ↔
          Heeds (epollStep P) (fun s a => s.taken fd a = s.handed fd a)
            actions (start store)) := by
  intro actions t fd hheeds hrun
  obtain ⟨m₀, hm₀⟩ := hstore
  constructor
  · have hbalance :
        pending fd (start store) ++
            observed (epollStep P) (made P fd) actions (start store) =
          observed (epollStep P) (handed fd) actions (start store) ++
            pending fd t := by
      apply observed_balance (fun s => ∃ m, Serving P s m) (pending fd) ?_ ?_
        ⟨m₀, tabled_start store, hm₀⟩ hheeds hrun
      · rintro s a s' ⟨m, hserving⟩ hpermits hstep
        exact ⟨_, hserving.next hP hpermits hstep⟩
      · rintro s a s' ⟨m, hserving⟩ hpermits hstep
        exact (hserving.step hP hpermits hstep).balance hserving.tabled
    rw [pending_of_unwatched (s := start store) rfl,
      List.nil_append] at hbalance
    exact hbalance
  · exact observed_eq_iff_heeds (fun s a => taken_prefix) hrun

/-- Three bytes of the first reply are all that the first client gets. -/
theorem epollServer_sends_sample :
    observed (epollStep samplePlatform) (taken 5) sampleActions
        (start sampleStore) ≠
      observed (epollStep samplePlatform) (handed 5) sampleActions
        (start sampleStore) := by
  obtain ⟨t, hrun, -⟩ := sampleActions_reach
  obtain ⟨-, hall⟩ := epollServer_sends samplePlatform samplePlatform_succeeds
    sampleStore ⟨_, sampleStore_holds⟩ sampleActions t 5 (by decide +kernel)
    hrun
  rw [ne_eq, hall]
  decide +kernel

end Sending

end EpollServer

end CAdvanced
