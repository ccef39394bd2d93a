import CAdvanced.EpollServer
import CAdvanced.ServedRequests

/-!
# The connections of the epoll server

Every event is handled by the callback that belongs to its descriptor, and
what is open is watched; a connection is closed when its own `recv` returns 0,
and at no other time.
-/

namespace CAdvanced

open Fallible
open KeyValue
open Transition
open Server

namespace EpollServer

/-! ## What the callbacks do -/

/-- A new connection waits for its first request. -/
def accepted (fd : ℕ) (s : EpollServer) : EpollServer :=
  withEntry fd ⟨.fresh, some .recvCb, some .sendCb⟩
    (watch fd (some .input) (openFd fd s))

/-- The entry holds the reply, which is to be sent. -/
def served (fd : ℕ) (store : Server) (s : EpollServer) : EpollServer :=
  watch fd (some .output) (putItem fd store s)

/-- The socket listens, and is watched unless `epoll_create` has failed. -/
def listening (fd : ℕ) (ep : Option ℕ) (s : EpollServer) : EpollServer :=
  withPhase .looping ((ep.elim id (fun _ => watch fd (some .input)))
    (withEpfd ep (listen fd (openFd fd s))))

/-- What `recv_cb` does with the entry, and the reply that it leaves. -/
def serveReceived (P : Platform) (r : Received) : Exec Server (List UInt8) := do
  recvInto r
  CAdvanced.addRlength r.count
  serveMessage P

section Specs

variable {α : Type} {P : Platform} {s : EpollServer} {fd : ℕ} {r : Received}

theorem returns_atEntry {m : Exec EpollServer α} (hfd : fd < connectionMax)
    (Q : α → EpollServer → Prop) :
    Returns (atEntry fd m) s Q ↔ Returns m s Q := by
  rw [atEntry, if_pos hfd]

theorem returns_onItem {m : Exec Server α} (hfd : fd < connectionMax)
    (Q : α → EpollServer → Prop) :
    Returns (onItem fd m) s Q ↔
      Returns m (itemAt fd s) (fun a t => Q a (putItem fd t s)) := by
  rw [onItem, returns_atEntry hfd, returns_within]

theorem not_returns_onItem {m : Exec Server α} (hfd : ¬ fd < connectionMax)
    (Q : α → EpollServer → Prop) : ¬ Returns (onItem fd m) s Q := by
  rw [onItem, atEntry, if_neg hfd, returns_throw]
  exact not_false

theorem returns_setEvent {event : Interest} {flag : Bool}
    (hepfd : s.epfd.isSome = true) (hopened : fd ∈ s.opened)
    (hwatched : (s.watched fd).isNone = flag)
    (Q : Unit → EpollServer → Prop) :
    Returns (setEvent fd event flag) s Q ↔
      Q () (watch fd (some event) s) := by
  rw [setEvent, returns_bind, Fallible.returns_get,
    if_pos ⟨hepfd, hopened, hwatched⟩, returns_modify]

theorem itemAt_putItem (t : Server) : itemAt fd (putItem fd t s) = t := by
  simp only [itemAt, putItem_connectionList, Function.update_self,
    putItem_store]
  rfl

theorem putItem_itemAt : putItem fd (itemAt fd s) s = s := by
  have hentry : { s.connectionList fd with item := (itemAt fd s).item } =
      s.connectionList fd := rfl
  rw [putItem, hentry, Function.update_eq_self]
  rfl

theorem putItem_putItem (t t' : Server) :
    putItem fd t' (putItem fd t s) = putItem fd t' s := by
  simp only [putItem, Function.update_self, Function.update_idem]
  rfl

theorem returns_acceptCb {clientfd : ℕ} (hfd : clientfd < connectionMax)
    (hepfd : s.epfd.isSome = true) (hwatched : s.watched clientfd = none)
    (Q : ℤ → EpollServer → Prop) :
    Returns (acceptCb (some clientfd)) s Q ↔
      Q clientfd (accepted clientfd s) := by
  have hopened : clientfd ∈ (openFd clientfd s).opened :=
    Finset.mem_insert_self _ _
  rw [acceptCb, returns_bind, returns_modify, returns_bind,
    returns_setEvent (s := openFd clientfd s) hepfd hopened
      (by simp [hwatched]), returns_bind, returns_onItem hfd,
    CAdvanced.acceptCb, returns_modify, returns_bind,
    returns_modify, returns_pure]
  have hend : withCallbacks clientfd (putItem clientfd
      (withItem .fresh (itemAt clientfd
        (watch clientfd (some .input) (openFd clientfd s))))
      (watch clientfd (some .input) (openFd clientfd s))) =
        accepted clientfd s := by
    simp only [withCallbacks, putItem, accepted, withEntry,
      Function.update_self, Function.update_idem, withItem_item]
    rfl
  rw [hend]

/-- Beyond the table there is no entry. -/
theorem not_returns_acceptCb {clientfd : ℕ} (hfd : ¬ clientfd < connectionMax)
    (Q : ℤ → EpollServer → Prop) :
    ¬ Returns (acceptCb (some clientfd)) s Q := by
  rw [acceptCb, returns_bind, returns_modify, returns_bind]
  rintro ⟨_, s', -, hrest⟩
  rw [returns_bind] at hrest
  exact not_returns_onItem hfd _ hrest

theorem received_bytes_of_count (h : r.count = 0) : r.bytes = [] := by
  cases r with
  | data bytes =>
      have hlength : (bytes.length : ℤ) = 0 := h
      exact List.length_eq_zero_iff.mp (by exact_mod_cast hlength)
  | closed => rfl
  | failed => rfl

theorem returns_recvCb_closed (hfd : fd < connectionMax)
    (hcount : r.count = 0) (Q : ℤ → EpollServer → Prop) :
    Returns (recvCb fd P r) s Q ↔ Q (-1) (closeFd fd s) := by
  have hput : putItem fd (withItem ((itemAt fd s).item.receive r.bytes)
      (itemAt fd s)) s = s := by
    have hreceive : ∀ item : Connection, item.receive [] = item :=
      fun item => rfl
    rw [received_bytes_of_count hcount, hreceive]
    exact putItem_itemAt
  rw [recvCb, returns_bind, returns_onItem hfd, recvInto, returns_modify,
    hput, if_pos hcount, returns_bind, returns_modify, returns_bind,
    returns_modify, returns_pure]
  have hend : closeFd fd (watch fd none s) = closeFd fd s := by
    simp [closeFd, watch]
  rw [hend]

theorem returns_recvCb_served (hfd : fd < connectionMax)
    (hepfd : s.epfd.isSome = true) (hopened : fd ∈ s.opened)
    (hwatched : (s.watched fd).isSome = true) (hcount : r.count ≠ 0)
    (Q : ℤ → EpollServer → Prop) :
    Returns (recvCb fd P r) s Q ↔
      Returns (serveReceived P r) (itemAt fd s)
        (fun _ t => Q r.count (served fd t s)) := by
  have hsome : (s.watched fd).isNone = false := by
    rw [Option.isNone_eq_false_iff]
    exact hwatched
  rw [recvCb, returns_bind, returns_onItem hfd, serveReceived, returns_bind]
  apply returns_congr
  intro _ t
  rw [if_neg hcount, returns_bind, returns_onItem hfd, returns_bind,
    itemAt_putItem]
  apply returns_congr
  intro _ t'
  rw [putItem_putItem, returns_bind,
    returns_setEvent (s := putItem fd t' s) hepfd hopened hsome, returns_bind,
    returns_onItem hfd]
  have hitem : itemAt fd (watch fd (some .output) (putItem fd t' s)) = t' :=
    itemAt_putItem t'
  rw [hitem, serveMessage, returns_bind, returns_bind]
  apply returns_congr
  intro _ u
  rw [returns_bind]
  apply returns_congr
  intro _ u'
  rw [returns_pure, sendReply, returns_bind, Fallible.returns_get,
    returns_pure]
  have hend : putItem fd u' (watch fd (some .output) (putItem fd t' s)) =
      served fd u' s := by
    exact congrArg (watch fd (some .output)) (putItem_putItem t' u')
  rw [hend]

theorem returns_sendCb {ret : ℤ} (hfd : fd < connectionMax)
    (hepfd : s.epfd.isSome = true) (hopened : fd ∈ s.opened)
    (hwatched : (s.watched fd).isSome = true) (Q : ℤ → EpollServer → Prop) :
    Returns (sendCb fd ret) s Q ↔ Q ret (watch fd (some .input) s) := by
  have hsome : (s.watched fd).isNone = false := by
    rw [Option.isNone_eq_false_iff]
    exact hwatched
  rw [sendCb, returns_bind, returns_onItem hfd, sendReply, returns_bind,
    Fallible.returns_get, returns_pure, putItem_itemAt, returns_bind,
    returns_setEvent hepfd hopened hsome, returns_pure]

end Specs

/-! ## The table -/

/-- The descriptors that stay open. -/
def Fixed (s : EpollServer) (fd : ℕ) : Prop :=
  fd ∈ ({0, 1, 2} : Finset ℕ) ∨ fd ∈ s.listernFd ∨ fd ∈ s.epfd

/-- The table, the descriptors and the batch fit each other. -/
structure Tabled (s : EpollServer) : Prop where
  asleep : s.phase ≠ .looping → s.events = [] ∧ ∀ fd, s.watched fd = none
  usable : ∀ fd, (s.watched fd).isSome →
    fd ∈ s.opened ∧ fd < connectionMax ∧ s.epfd.isSome
  listens : ∀ fd ∈ s.listernFd,
    (s.connectionList fd).recvT = some .acceptCb ∧
      s.watched fd ≠ some .output
  clients : ∀ fd, (s.watched fd).isSome → fd ∉ s.listernFd →
    (s.connectionList fd).recvT = some .recvCb ∧
      (s.connectionList fd).sendCallback = some .sendCb
  fixed : ∀ fd, s.Fixed fd → fd ∈ s.opened
  apart : ∀ fd, (s.watched fd).isSome → s.Fixed fd → fd ∈ s.listernFd
  opened : s.phase ≠ .returned → ∀ fd ∈ s.opened,
    s.Fixed fd ∨ (s.watched fd).isSome
  unsocketed : s.phase = .idle → s.listernFd = none ∧ s.epfd = none
  reported : ∀ e ∈ s.events, s.Reported e
  nodup : (s.events.map EpollEvent.fd).Nodup

/-- Which callback an event of the batch leads to. -/
inductive Leads (s : EpollServer) (e : EpollEvent) : Option Callback → Prop
  | nowhere (hin : e.epollin = false) (hout : e.epollout = false) :
      Leads s e none
  | accepts (hin : e.epollin = true) (hlistern : e.fd ∈ s.listernFd) :
      Leads s e (some .acceptCb)
  | receives (hin : e.epollin = true) (hclient : e.fd ∉ s.listernFd)
      (hwatched : s.watched e.fd = some .input) : Leads s e (some .recvCb)
  | sends (hin : e.epollin = false) (hout : e.epollout = true)
      (hclient : e.fd ∉ s.listernFd)
      (hwatched : s.watched e.fd = some .output) : Leads s e (some .sendCb)

section Table

variable {P : Platform} {s s' : EpollServer} {e : EpollEvent}
  {rest : List EpollEvent} {a : EpollAction} {fd : ℕ}

theorem tabled_start (store : Server) : Tabled (start store) where
  asleep := fun _ => ⟨rfl, fun _ => rfl⟩
  usable := by
    intro fd hfd
    cases hfd
  listens := by
    intro fd hfd
    cases hfd
  clients := by
    intro fd hfd
    cases hfd
  fixed := by
    rintro fd (hfd | hfd | hfd)
    · exact hfd
    · cases hfd
    · cases hfd
  apart := by
    intro fd hfd
    cases hfd
  opened := fun _ fd hfd => .inl (.inl hfd)
  unsocketed := fun _ => ⟨rfl, rfl⟩
  reported := by
    intro e he
    cases he
  nodup := List.nodup_nil

theorem Tabled.leads (h : Tabled s) (he : e ∈ s.events) :
    Leads s e (s.calledBy e) := by
  obtain ⟨interest, hwatched, hin, hout⟩ := h.reported e he
  have hsome : (s.watched e.fd).isSome = true :=
    Option.isSome_iff_exists.mpr ⟨interest, hwatched⟩
  unfold calledBy
  split_ifs with hepollin hepollout
  · by_cases hlistern : e.fd ∈ s.listernFd
    · rw [(h.listens e.fd hlistern).1]
      exact .accepts hepollin hlistern
    · rw [(h.clients e.fd hsome hlistern).1]
      rw [hin hepollin] at hwatched
      exact .receives hepollin hlistern hwatched
  · rw [hout hepollout] at hwatched
    have hclient : e.fd ∉ s.listernFd := by
      intro hlistern
      exact (h.listens e.fd hlistern).2 hwatched
    rw [(h.clients e.fd hsome hclient).2]
    exact .sends (Bool.eq_false_iff.mpr hepollin) hepollout hclient hwatched
  · exact .nowhere (Bool.eq_false_iff.mpr hepollin)
      (Bool.eq_false_iff.mpr hepollout)

/-! ## The steps of the server -/

/-- Where an action of the server leads. -/
inductive Turns (P : Platform) (s : EpollServer) :
    EpollAction → EpollServer → Prop
  | refused {sock ep : Option ℕ} {bound : Bool} (hphase : s.phase = .idle) :
      Turns P s (.entry sock bound ep) (withPhase .returned
        (sock.elim s (fun fd => openFd fd s)))
  | listening {fd : ℕ} {ep : Option ℕ} (hphase : s.phase = .idle)
      (hfd : fd < connectionMax) (hfresh : fd ∉ s.opened)
      (hep : ∀ x ∈ ep, x ∉ s.opened ∧ x ≠ fd) :
      Turns P s (.entry (some fd) true ep) (listening fd ep s)
  | waited {batch : List EpollEvent} (hphase : s.phase = .looping)
      (hnodup : (batch.map EpollEvent.fd).Nodup)
      (hreported : ∀ e ∈ batch, s.Reported e) :
      Turns P s (.wait batch) (withEvents batch s)
  | passed {result : Result} {e : EpollEvent} {rest : List EpollEvent}
      (hevents : s.events = e :: rest)
      (hquiet : result = .skip ∨ result = .accept none) :
      Turns P s (.handle result) (withEvents rest s)
  | accepted {e : EpollEvent} {rest : List EpollEvent} {fd : ℕ}
      (hevents : s.events = e :: rest) (hlistern : e.fd ∈ s.listernFd)
      (hwatched : s.watched e.fd = some .input)
      (hfd : fd < connectionMax) (hfresh : fd ∉ s.opened) :
      Turns P s (.handle (.accept (some fd)))
        (accepted fd (withEvents rest s))
  | closed {e : EpollEvent} {rest : List EpollEvent} {r : Received}
      (hevents : s.events = e :: rest) (hclient : e.fd ∉ s.listernFd)
      (hwatched : s.watched e.fd = some .input) (hcount : r.count = 0) :
      Turns P s (.handle (.recv r)) (closeFd e.fd (withEvents rest s))
  | served {e : EpollEvent} {rest : List EpollEvent} {r : Received}
      {reply : List UInt8} {store : Server}
      (hevents : s.events = e :: rest) (hclient : e.fd ∉ s.listernFd)
      (hwatched : s.watched e.fd = some .input) (hcount : r.count ≠ 0)
      (hrun : (serveReceived P r).run (itemAt e.fd s) = .ok (reply, store)) :
      Turns P s (.handle (.recv r)) (served e.fd store (withEvents rest s))
  | sent {e : EpollEvent} {rest : List EpollEvent} {ret : ℤ}
      (hevents : s.events = e :: rest) (hclient : e.fd ∉ s.listernFd)
      (hwatched : s.watched e.fd = some .output) :
      Turns P s (.handle (.send ret))
        (watch e.fd (some .input) (withEvents rest s))

/-- A complete request is answered as the specification answers it. -/
theorem returns_serveReceived {m : Stores} {r : Received}
    (hP : P.Succeeds) (h : ServerHolds P s.store m)
    (hserve : s.CanServe P fd r) :
    Returns (serveReceived P r) (itemAt fd s) (fun reply t =>
      ∃ text ∈ s.requestAt fd r, reply = (protocolSpec text m).1.bytes ∧
        ServerHolds P t (protocolSpec text m).2) := by
  obtain ⟨htotal, text, htext, hmsg, hcount, hkey⟩ := hserve
  obtain ⟨front, post, hbuf, hfront⟩ := textAt_eq_some htext
  rw [List.eq_nil_of_length_eq_zero hfront, List.nil_append] at hbuf
  rw [serveReceived, returns_bind, recvInto, returns_modify, returns_bind,
    CAdvanced.addRlength, returns_bind, Fallible.returns_get]
  have htotal' : inInt ((withItem ((itemAt fd s).item.receive r.bytes)
    (itemAt fd s)).item.rlength + r.count) := htotal
  rw [if_pos htotal', returns_modify]
  apply (h.returns_serveMessage hP
    { (s.connectionList fd).item.receive r.bytes with
      rlength := (s.connectionList fd).item.rlength + r.count }
    s.store.commandReads hbuf hmsg hcount hkey).mono
  rintro reply t ⟨hreply, hholds⟩
  exact ⟨text, htext, hreply, hholds⟩

theorem returns_setEvent_add (event : Interest) (hopened : fd ∈ s.opened)
    (hwatched : s.watched fd = none) (Q : Unit → EpollServer → Prop) :
    Returns (setEvent fd event true) s Q ↔
      Q () (s.epfd.elim s (fun _ => watch fd (some event) s)) := by
  cases hepfd : s.epfd with
  | none =>
      rw [setEvent, returns_bind, Fallible.returns_get, if_neg (by simp [hepfd]),
        returns_pure, Option.elim_none]
  | some ep =>
      rw [returns_setEvent (by simp [hepfd]) hopened (by simp [hwatched]),
        Option.elim_some]

/-- The socket is listened to, unless there is none or `bind` fails. -/
theorem Tabled.returns_entry (h : Tabled s) {sock ep : Option ℕ} {bound : Bool}
    (hphase : s.phase = .idle) (hpermits : s.Permits P (.entry sock bound ep)) :
    Returns (epollEntry sock bound ep) s
      (fun _ s' => Turns P s (.entry sock bound ep) s') := by
  cases sock with
  | none =>
      rw [epollEntry, returns_modify]
      exact .refused hphase
  | some fd =>
      rw [epollEntry, returns_bind, returns_modify]
      cases bound with
      | false =>
          rw [if_neg Bool.false_ne_true, returns_modify]
          exact .refused hphase
      | true =>
          obtain ⟨hsock, hep⟩ := hpermits
          obtain ⟨hfd, hfresh⟩ := hsock fd rfl
          have hwatched : s.watched fd = none :=
            (h.asleep (by simp [hphase])).2 fd
          have hmem : fd ∈ (withEpfd ep (listen fd (openFd fd s))).opened := by
            cases ep <;> simp
          rw [if_pos rfl, returns_bind, returns_atEntry hfd, returns_modify,
            returns_bind, returns_modify, returns_bind,
            returns_setEvent_add _ hmem hwatched, returns_modify]
          have hturns : Turns P s (.entry (some fd) true ep)
              (listening fd ep s) :=
            .listening hphase hfd hfresh (fun x hx => ⟨(hep x hx).1, fun heq =>
              (hep x hx).2 (congrArg some heq)⟩)
          cases ep <;> exact hturns

/-- No event of a batch leads to a null pointer or to another entry. -/
theorem Tabled.returns_handle (hP : P.Succeeds) (h : Tabled s)
    (hholds : ∃ m, ServerHolds P s.store m) {result : Result}
    (hcan : s.CanDo (.handle result) = true)
    (hpermits : s.Permits P (.handle result)) :
    Returns (handle P result) s (fun _ s' => Turns P s (.handle result) s') := by
  obtain ⟨hphase, hcalls⟩ := of_decide_eq_true hcan
  cases hevents : s.events with
  | nil =>
      rw [hevents] at hcalls
      cases hcalls
  | cons e rest =>
      rw [hevents, List.head?_cons, Option.any_some] at hcalls
      have hmem : e ∈ s.events := by
        rw [hevents]
        exact List.mem_cons_self
      obtain ⟨interest, hinterest, -⟩ := h.reported e hmem
      have hsome : (s.watched e.fd).isSome = true :=
        Option.isSome_iff_exists.mpr ⟨interest, hinterest⟩
      obtain ⟨hopened, hfd, hepfd⟩ := h.usable e.fd hsome
      have hleads := h.leads hmem
      simp only [handle, returns_bind, Fallible.returns_get, hevents,
        returns_modify, returns_ite, returns_atEntry hfd, returns_load,
        withEvents_connectionList, returns_pure]
      cases hcallback : s.calledBy e with
      | none =>
          rw [hcallback] at hcalls hleads
          cases hleads with
          | nowhere hin hout =>
              cases result with
              | skip =>
                  simp only [hin, hout, Bool.false_eq_true, reduceIte]
                  exact .passed hevents (.inl rfl)
              | _ => cases hcalls
      | some callback =>
          rw [hcallback] at hcalls hleads
          cases hleads with
          | accepts hin hlistern =>
              have hcall := (h.listens e.fd hlistern).1
              simp only [hin, reduceIte, hcall, Option.some.injEq,
                exists_eq_left']
              cases result with
              | accept clientfd =>
                  cases clientfd with
                  | none =>
                      rw [call, acceptCb, returns_pure]
                      exact .passed hevents (.inr rfl)
                  | some clientfd =>
                      obtain ⟨hclientfd, hfresh⟩ := hpermits clientfd rfl
                      have hwatched : s.watched clientfd = none := by
                        by_contra hne
                        exact hfresh (h.usable clientfd
                          (Option.isSome_iff_ne_none.mpr hne)).1
                      rw [call, returns_acceptCb (s := withEvents rest s)
                        hclientfd hepfd hwatched]
                      have hinput : s.watched e.fd = some .input := by
                        cases interest with
                        | input => exact hinterest
                        | output =>
                            exact absurd hinterest (h.listens e.fd hlistern).2
                      exact .accepted hevents hlistern hinput hclientfd hfresh
              | _ => cases hcalls
          | receives hin hclient hwatched =>
              have hcall := (h.clients e.fd hsome hclient).1
              simp only [hin, reduceIte, hcall, Option.some.injEq,
                exists_eq_left']
              cases result with
              | recv r =>
                  rw [call]
                  by_cases hcount : r.count = 0
                  · rw [returns_recvCb_closed hfd hcount]
                    exact .closed hevents hclient hwatched hcount
                  · rw [returns_recvCb_served (s := withEvents rest s) hfd
                      hepfd hopened hsome hcount]
                    obtain ⟨m, hm⟩ := hholds
                    have hserve := hpermits hcount e (by rw [hevents]; rfl)
                    obtain ⟨reply, t, hrun, -⟩ :=
                      returns_serveReceived hP hm hserve
                    exact ⟨reply, t, hrun,
                      .served hevents hclient hwatched hcount hrun⟩
              | _ => cases hcalls
          | sends hin hout hclient hwatched =>
              have hcall := (h.clients e.fd hsome hclient).2
              simp only [hin, hout, Bool.false_eq_true, reduceIte, hcall,
                Option.some.injEq, exists_eq_left']
              cases result with
              | send ret =>
                  rw [call, returns_sendCb (s := withEvents rest s) hfd hepfd
                    hopened hsome]
                  exact .sent hevents hclient hwatched
              | _ => cases hcalls

/-- Every action that can be taken is, and leads where it should. -/
theorem Tabled.returns_act (hP : P.Succeeds) (h : Tabled s)
    (hholds : ∃ m, ServerHolds P s.store m) (hcan : s.CanDo a = true)
    (hpermits : s.Permits P a) :
    Returns (epollAct P a) s (fun _ s' => Turns P s a s') := by
  cases a with
  | entry sock bound ep =>
      exact h.returns_entry (of_decide_eq_true hcan) hpermits
  | wait batch =>
      obtain ⟨hphase, -⟩ := of_decide_eq_true hcan
      rw [epollAct, returns_modify]
      exact .waited hphase hpermits.1 hpermits.2
  | handle result => exact h.returns_handle hP hholds hcan hpermits

/-- An event is still reported if its descriptor is watched as before. -/
theorem Reported.of_watched (h : s.Reported e)
    (hwatched : s'.watched e.fd = s.watched e.fd) : s'.Reported e := by
  rw [Reported, hwatched]
  exact h

theorem Tabled.withEvents (h : Tabled s) (hevents : s.events = e :: rest) :
    Tabled (withEvents rest s) := by
  refine ⟨?_, h.usable, h.listens, h.clients, h.fixed, h.apart, h.opened,
    h.unsocketed, ?_, ?_⟩
  · intro hphase
    have hnil := (h.asleep hphase).1
    rw [hevents] at hnil
    cases hnil
  · intro e' he'
    exact h.reported e' (by rw [hevents]; exact List.mem_cons_of_mem e he')
  · have hnodup := h.nodup
    rw [hevents, List.map_cons, List.nodup_cons] at hnodup
    exact hnodup.2

theorem Tabled.notMem_rest (h : Tabled s) (hevents : s.events = e :: rest) :
    ∀ e' ∈ rest, e'.fd ≠ e.fd := by
  intro e' he' heq
  have hnodup := h.nodup
  rw [hevents, List.map_cons, List.nodup_cons, ← heq] at hnodup
  exact hnodup.1 (List.mem_map_of_mem he')

/-- The descriptor of an event waits for something else now, or its entry
changes. -/
theorem Tabled.rewatch (h : Tabled s) {interest : Interest}
    {connectionList : ℕ → ConnectionItem} {store : Server}
    (hsome : (s.watched fd).isSome = true) (hclient : fd ∉ s.listernFd)
    (hrest : ∀ e ∈ s.events, e.fd ≠ fd)
    (hrecv : ∀ x, (connectionList x).recvT = (s.connectionList x).recvT)
    (hsend : ∀ x, (connectionList x).sendCallback =
      (s.connectionList x).sendCallback) :
    Tabled (watch fd (some interest)
      { s with connectionList := connectionList, store := store }) := by
  have hwatched : ∀ x, (Function.update s.watched fd (some interest) x).isSome =
      (s.watched x).isSome := by
    intro x
    by_cases hx : x = fd
    · rw [hx, Function.update_self, hsome]
      rfl
    · rw [Function.update_of_ne hx]
  refine ⟨?_, ?_, ?_, ?_, h.fixed, ?_, ?_, h.unsocketed, ?_, h.nodup⟩
  · intro hphase
    rw [(h.asleep hphase).2 fd] at hsome
    cases hsome
  · intro x hx
    exact h.usable x ((hwatched x).symm.trans hx)
  · intro x hx
    refine ⟨(hrecv x).trans (h.listens x hx).1, ?_⟩
    have hne : x ≠ fd := by
      rintro rfl
      exact hclient hx
    rw [watch_watched, Function.update_of_ne hne]
    exact (h.listens x hx).2
  · intro x hx hnot
    have hcallbacks := h.clients x ((hwatched x).symm.trans hx) hnot
    exact ⟨(hrecv x).trans hcallbacks.1, (hsend x).trans hcallbacks.2⟩
  · intro x hx
    exact h.apart x ((hwatched x).symm.trans hx)
  · intro hphase x hx
    exact (h.opened hphase x hx).imp_right (fun hx' => (hwatched x).trans hx')
  · intro e he
    exact (h.reported e he).of_watched (Function.update_of_ne (hrest e he) _ _)

theorem Tabled.accepted (h : Tabled s) (hphase : s.phase = .looping)
    (hepfd : s.epfd.isSome = true) (hfd : fd < connectionMax)
    (hfresh : fd ∉ s.opened) : Tabled (accepted fd s) := by
  have hunwatched : s.watched fd = none := by
    by_contra hne
    exact hfresh (h.usable fd (Option.isSome_iff_ne_none.mpr hne)).1
  have hunfixed : ¬ s.Fixed fd := fun hfixed => hfresh (h.fixed fd hfixed)
  have hlistern : fd ∉ s.listernFd := fun hmem => hunfixed (.inr (.inl hmem))
  refine ⟨?_, ?_, ?_, ?_, ?_, ?_, ?_, ?_, ?_, h.nodup⟩
  · intro hnot
    exact absurd hphase hnot
  · intro x hx
    by_cases hne : x = fd
    · subst hne
      exact ⟨Finset.mem_insert_self x _, hfd, hepfd⟩
    · have hx' : (s.watched x).isSome = true := by
        simpa [EpollServer.accepted, hne] using hx
      obtain ⟨hopened, hmax, -⟩ := h.usable x hx'
      exact ⟨Finset.mem_insert_of_mem hopened, hmax, hepfd⟩
  · intro x hx
    have hne : x ≠ fd := by
      rintro rfl
      exact hlistern hx
    simpa [EpollServer.accepted, hne] using h.listens x hx
  · intro x hx hnot
    by_cases hne : x = fd
    · subst hne
      simp [EpollServer.accepted]
    · have hx' : (s.watched x).isSome = true := by
        simpa [EpollServer.accepted, hne] using hx
      simpa [EpollServer.accepted, hne] using h.clients x hx' hnot
  · intro x hx
    exact Finset.mem_insert_of_mem (h.fixed x hx)
  · intro x hx hfixed
    have hne : x ≠ fd := by
      rintro rfl
      exact hunfixed hfixed
    have hx' : (s.watched x).isSome = true := by
      simpa [EpollServer.accepted, hne] using hx
    exact h.apart x hx' hfixed
  · intro hreturned x hx
    rcases Finset.mem_insert.mp hx with rfl | hx
    · exact .inr (by simp [EpollServer.accepted])
    · by_cases hne : x = fd
      · exact .inr (by simp [EpollServer.accepted, hne])
      · exact (h.opened hreturned x hx).imp_right (fun hx' => by
          simpa [EpollServer.accepted, hne] using hx')
  · intro hidle
    rw [show (EpollServer.accepted fd s).phase = s.phase from rfl,
      hphase] at hidle
    cases hidle
  · intro e he
    have hreported := h.reported e he
    have hne : e.fd ≠ fd := by
      intro heq
      obtain ⟨interest, hwatched, -⟩ := hreported
      rw [heq, hunwatched] at hwatched
      cases hwatched
    exact hreported.of_watched (Function.update_of_ne hne _ _)

theorem Tabled.closeFd (h : Tabled s) (hsome : (s.watched fd).isSome = true)
    (hclient : fd ∉ s.listernFd) (hrest : ∀ e ∈ s.events, e.fd ≠ fd) :
    Tabled (closeFd fd s) := by
  have hunfixed : ¬ s.Fixed fd := fun hfixed => hclient (h.apart fd hsome hfixed)
  have hother : ∀ {x}, ((EpollServer.closeFd fd s).watched x).isSome = true →
      x ≠ fd ∧ (s.watched x).isSome = true := by
    intro x hx
    have hne : x ≠ fd := by
      rintro rfl
      simp at hx
    rw [closeFd_watched, Function.update_of_ne hne] at hx
    exact ⟨hne, hx⟩
  refine ⟨?_, ?_, ?_, ?_, ?_, ?_, ?_, h.unsocketed, ?_, h.nodup⟩
  · intro hphase
    rw [(h.asleep hphase).2 fd] at hsome
    cases hsome
  · intro x hx
    obtain ⟨hne, hx'⟩ := hother hx
    obtain ⟨hopened, hmax, hepfd⟩ := h.usable x hx'
    exact ⟨Finset.mem_erase.mpr ⟨hne, hopened⟩, hmax, hepfd⟩
  · intro x hx
    have hne : x ≠ fd := by
      rintro rfl
      exact hclient hx
    refine ⟨(h.listens x hx).1, ?_⟩
    rw [closeFd_watched, Function.update_of_ne hne]
    exact (h.listens x hx).2
  · intro x hx hnot
    exact h.clients x (hother hx).2 hnot
  · intro x hx
    have hne : x ≠ fd := by
      rintro rfl
      exact hunfixed hx
    exact Finset.mem_erase.mpr ⟨hne, h.fixed x hx⟩
  · intro x hx hfixed
    exact h.apart x (hother hx).2 hfixed
  · intro hphase x hx
    obtain ⟨hne, hopened⟩ := Finset.mem_erase.mp hx
    refine (h.opened hphase x hopened).imp_right (fun hx' => ?_)
    rw [closeFd_watched, Function.update_of_ne hne]
    exact hx'
  · intro e he
    exact (h.reported e he).of_watched (Function.update_of_ne (hrest e he) _ _)

theorem Tabled.refused (h : Tabled s) (hphase : s.phase = .idle)
    (sock : Option ℕ) : Tabled (withPhase .returned
      (sock.elim s (fun fd => openFd fd s))) := by
  have hasleep := h.asleep (by simp [hphase])
  obtain ⟨hlistern, hepfd⟩ := h.unsocketed hphase
  cases sock with
  | none =>
      exact ⟨fun _ => hasleep, h.usable, h.listens, h.clients, h.fixed,
        h.apart, fun hne => absurd rfl hne,
        fun _ => ⟨hlistern, hepfd⟩, h.reported, h.nodup⟩
  | some fd =>
      refine ⟨fun _ => hasleep, ?_, h.listens, h.clients, ?_, h.apart,
        fun hne => absurd rfl hne, fun _ => ⟨hlistern, hepfd⟩, h.reported,
        h.nodup⟩
      · intro x hx
        obtain ⟨hopened, husable⟩ := h.usable x hx
        exact ⟨Finset.mem_insert_of_mem hopened, husable⟩
      · intro x hx
        exact Finset.mem_insert_of_mem (h.fixed x hx)

theorem Tabled.listening (h : Tabled s) {ep : Option ℕ}
    (hphase : s.phase = .idle) (hfd : fd < connectionMax) :
    Tabled (listening fd ep s) := by
  obtain ⟨hnil, hwatched⟩ := h.asleep (by simp [hphase])
  obtain ⟨hlistern, hepfd⟩ := h.unsocketed hphase
  have hbase : ∀ x ∈ s.opened, x ∈ ({0, 1, 2} : Finset ℕ) := by
    intro x hx
    rcases h.opened (by simp [hphase]) x hx with (hx | hx | hx) | hx
    · exact hx
    · rw [hlistern] at hx
      cases hx
    · rw [hepfd] at hx
      cases hx
    · rw [hwatched x] at hx
      cases hx
  have hopened : ∀ x, x ∈ (EpollServer.listening fd ep s).opened ↔
      x ∈ ep ∨ x = fd ∨ x ∈ s.opened := by
    intro x
    cases ep <;> simp [EpollServer.listening, eq_comm]
  have hfixed : ∀ x, (EpollServer.listening fd ep s).Fixed x ↔
      x ∈ ({0, 1, 2} : Finset ℕ) ∨ x = fd ∨ x ∈ ep := by
    intro x
    cases ep <;> simp [Fixed, EpollServer.listening, eq_comm]
  have honly : ∀ x, ((EpollServer.listening fd ep s).watched x).isSome = true →
      x = fd ∧ ep.isSome = true := by
    intro x hx
    cases ep with
    | none => simp [EpollServer.listening, hwatched] at hx
    | some ep =>
        by_contra hne
        have hx' : x ≠ fd := fun heq => hne ⟨heq, rfl⟩
        simp [EpollServer.listening, hx', hwatched] at hx
  have hlisterns : (EpollServer.listening fd ep s).listernFd = some fd := by
    cases ep <;> rfl
  refine ⟨?_, ?_, ?_, ?_, ?_, ?_, ?_, ?_, ?_, ?_⟩
  · intro hne
    cases ep <;> exact absurd rfl hne
  · intro x hx
    obtain ⟨rfl, hsome⟩ := honly x hx
    refine ⟨(hopened x).mpr (.inr (.inl rfl)), hfd, ?_⟩
    cases ep with
    | none => cases hsome
    | some ep => rfl
  · intro x hx
    rw [hlisterns, Option.mem_some_iff] at hx
    subst hx
    cases ep <;> simp [EpollServer.listening, hwatched]
  · intro x hx hnot
    rw [hlisterns, Option.mem_some_iff] at hnot
    exact absurd (honly x hx).1.symm hnot
  · intro x hx
    rw [hopened]
    rcases (hfixed x).mp hx with hx | hx | hx
    · exact .inr (.inr (h.fixed x (.inl hx)))
    · exact .inr (.inl hx)
    · exact .inl hx
  · intro x hx _
    rw [hlisterns, Option.mem_some_iff]
    exact (honly x hx).1.symm
  · intro _ x hx
    rw [hfixed]
    rcases (hopened x).mp hx with hx | hx | hx
    · exact .inl (.inr (.inr hx))
    · exact .inl (.inr (.inl hx))
    · exact .inl (.inl (hbase x hx))
  · intro hidle
    cases ep <;> cases hidle
  · intro e he
    have hevents : (EpollServer.listening fd ep s).events = [] := by
      cases ep <;> exact hnil
    rw [hevents] at he
    cases he
  · have hevents : (EpollServer.listening fd ep s).events = [] := by
      cases ep <;> exact hnil
    rw [hevents]
    exact List.nodup_nil

/-- The table stays in order, whatever comes in. -/
theorem Turns.tabled (h : Tabled s) (hturns : Turns P s a s') :
    Tabled s' := by
  cases hturns with
  | refused hphase => exact h.refused hphase _
  | listening hphase hfd => exact h.listening hphase hfd
  | waited hphase hnodup hreported =>
      exact ⟨fun hne => absurd hphase hne, h.usable, h.listens, h.clients,
        h.fixed, h.apart, h.opened, h.unsocketed, hreported, hnodup⟩
  | passed hevents => exact h.withEvents hevents
  | @accepted e rest fd hevents hlistern hwatched hfd hfresh =>
      have hsome : (s.watched e.fd).isSome = true := by rw [hwatched]; rfl
      have hphase : s.phase = .looping := by
        by_contra hne
        rw [(h.asleep hne).1] at hevents
        cases hevents
      exact (h.withEvents hevents).accepted hphase (h.usable e.fd hsome).2.2
        hfd hfresh
  | @closed e rest r hevents hclient hwatched =>
      have hsome : (s.watched e.fd).isSome = true := by rw [hwatched]; rfl
      exact (h.withEvents hevents).closeFd hsome hclient
        (h.notMem_rest hevents)
  | @served e rest r reply store hevents hclient hwatched =>
      have hsome : (s.watched e.fd).isSome = true := by rw [hwatched]; rfl
      apply (h.withEvents hevents).rewatch hsome hclient
        (h.notMem_rest hevents)
      · intro x
        by_cases hx : x = e.fd <;> simp [hx]
      · intro x
        by_cases hx : x = e.fd <;> simp [hx]
  | @sent e rest ret hevents hclient hwatched =>
      have hsome : (s.watched e.fd).isSome = true := by rw [hwatched]; rfl
      exact (h.withEvents hevents).rewatch hsome hclient
        (h.notMem_rest hevents) (fun _ => rfl) (fun _ => rfl)

end Table

/-! ## Runs of the server -/

/-- The request that a step receives. -/
def asked (s : EpollServer) : EpollAction → Option CString
  | .handle (.recv r) =>
      if r.count = 0 then none
      else s.events.head?.bind (fun e => s.requestAt e.fd r)
  | _ => none

/-- The reply that a step computes. -/
def replied (P : Platform) (s : EpollServer) :
    EpollAction → Option (List UInt8)
  | .handle (.recv r) =>
      if r.count = 0 then none
      else s.events.head?.bind (fun e =>
        ((serveReceived P r).run (itemAt e.fd s)).toOption.map Prod.fst)
  | _ => none

/-- The connection whose `recv` returns 0 in a step. -/
def endedBy (s : EpollServer) : EpollAction → Option ℕ
  | .handle (.recv r) =>
      if r.count = 0 then s.events.head?.map EpollEvent.fd else none
  | _ => none

/-- The table is in order, and the engines hold their maps. -/
structure Serving (P : Platform) (s : EpollServer) (m : Stores) : Prop where
  tabled : Tabled s
  holds : ServerHolds P s.store m

section Runs

variable {P : Platform} {s s' : EpollServer} {m : Stores} {a : EpollAction}
  {fd : ℕ}

/-- A request is answered as the specification answers it, and nothing else
reaches the engines. -/
theorem Turns.answers (hP : P.Succeeds) (h : ServerHolds P s.store m)
    (hpermits : s.Permits P a) (hturns : Turns P s a s') :
    replied P s a =
        (s.asked a).map (fun text => (protocolSpec text m).1.bytes) ∧
      ServerHolds P s'.store
        ((s.asked a).elim m (fun text => (protocolSpec text m).2)) := by
  cases hturns with
  | @refused sock => cases sock <;> exact ⟨rfl, h⟩
  | @listening fd ep => cases ep <;> exact ⟨rfl, h⟩
  | waited => exact ⟨rfl, h⟩
  | passed hevents hquiet => rcases hquiet with rfl | rfl <;> exact ⟨rfl, h⟩
  | accepted => exact ⟨rfl, h⟩
  | closed hevents hclient hwatched hcount =>
      simp only [replied, asked, hcount, reduceIte]
      exact ⟨rfl, h⟩
  | @served e rest r reply store hevents hclient hwatched hcount hrun =>
      have hserve := hpermits hcount e (by rw [hevents]; rfl)
      obtain ⟨text, htext, hreply, hholds⟩ :=
        (returns_serveReceived hP h hserve).of_run hrun
      have htext' : s.requestAt e.fd r = some text := htext
      simp only [replied, asked, hcount, reduceIte, hevents, List.head?_cons,
        Option.bind_some, htext', hrun, Option.map_some, Option.elim_some]
      exact ⟨congrArg some hreply,
        (serverHolds_front s.store.item _).mpr hholds⟩
  | sent => exact ⟨rfl, h⟩

theorem epollStep_eq_some (hstep : epollStep P s a = some s') :
    s.CanDo a = true ∧ (epollAct P a).run s = .ok ((), s') := by
  unfold epollStep at hstep
  split_ifs at hstep with hcan
  cases hrun : (epollAct P a).run s with
  | error fault =>
      rw [hrun] at hstep
      cases hstep
  | ok p =>
      rw [hrun] at hstep
      cases hstep
      exact ⟨hcan, rfl⟩

theorem Serving.step (hP : P.Succeeds) (h : Serving P s m)
    (hpermits : s.Permits P a) (hstep : epollStep P s a = some s') :
    Turns P s a s' := by
  obtain ⟨hcan, hrun⟩ := epollStep_eq_some hstep
  exact (h.tabled.returns_act hP ⟨m, h.holds⟩ hcan hpermits).of_run hrun

theorem Serving.next (hP : P.Succeeds) (h : Serving P s m)
    (hpermits : s.Permits P a) (hstep : epollStep P s a = some s') :
    Serving P s' ((s.asked a).elim m (fun text => (protocolSpec text m).2)) := by
  have hturns := h.step hP hpermits hstep
  exact ⟨hturns.tabled h.tabled, (hturns.answers hP h.holds hpermits).2⟩

theorem serving_reach (hP : P.Succeeds) {store : Server}
    (hstore : ∃ m, ServerHolds P store m)
    (hs : Reach (epollStep P) (Permits P) (start store) s) :
    ∃ m, Serving P s m := by
  obtain ⟨m₀, hm₀⟩ := hstore
  apply hs.invariant ⟨m₀, tabled_start store, hm₀⟩
  rintro s a s' ⟨m, hserving⟩ hpermits hstep
  exact ⟨_, hserving.next hP hpermits hstep⟩

theorem Serving.exists_step (hP : P.Succeeds) (h : Serving P s m)
    (hcan : s.CanDo a = true) (hpermits : s.Permits P a) :
    ∃ s', epollStep P s a = some s' := by
  obtain ⟨_, s', hrun, -⟩ := h.tabled.returns_act hP ⟨m, h.holds⟩ hcan hpermits
  refine ⟨s', ?_⟩
  simp only [epollStep, hcan, reduceIte, hrun]
  rfl

/-- A descriptor behind the end of the table cannot be accepted. -/
theorem Tabled.lt_of_accept (h : Tabled s)
    (hcan : s.CanDo (.handle (.accept (some fd))) = true)
    (hstep : (epollStep P s (.handle (.accept (some fd)))).isSome = true) :
    fd < connectionMax := by
  obtain ⟨s', hs'⟩ := Option.isSome_iff_exists.mp hstep
  obtain ⟨-, hrun⟩ := epollStep_eq_some hs'
  obtain ⟨-, hcalls⟩ := of_decide_eq_true hcan
  cases hevents : s.events with
  | nil =>
      rw [hevents] at hcalls
      cases hcalls
  | cons e rest =>
      have hmem : e ∈ s.events := by
        rw [hevents]
        exact List.mem_cons_self
      rw [hevents, List.head?_cons, Option.any_some] at hcalls
      have hreturns : Returns (handle P (.accept (some fd))) s
          (fun _ _ => True) := ⟨(), s', hrun, trivial⟩
      have hleads := h.leads hmem
      cases hcallback : s.calledBy e with
      | none =>
          rw [hcallback] at hcalls
          cases hcalls
      | some callback =>
          rw [hcallback] at hcalls hleads
          cases hleads with
          | accepts hin hlistern =>
              have hcall := (h.listens e.fd hlistern).1
              obtain ⟨interest, hinterest, -⟩ := h.reported e hmem
              have hsome : (s.watched e.fd).isSome = true :=
                Option.isSome_iff_exists.mpr ⟨interest, hinterest⟩
              simp only [handle, returns_bind, Fallible.returns_get, hevents,
                returns_modify, hin, reduceIte,
                returns_atEntry (h.usable e.fd hsome).2.1, returns_load,
                withEvents_connectionList, hcall, Option.some.injEq,
                exists_eq_left', call] at hreturns
              by_contra hfd
              exact not_returns_acceptCb hfd _ hreturns
          | receives => cases hcalls
          | sends => cases hcalls

/-- The server calls no null pointer and leaves no table, whatever its
connections do and in whichever order: what the kernel and the clients may do
it can do, as long as the table has an entry for every descriptor. -/
theorem epollServer_safe (P : Platform) (hP : P.Succeeds) (store : Server)
    (hstore : ∃ m, ServerHolds P store m) :
    ∀ s, Reach (epollStep P) (Permits P) (start store) s →
      (∀ e ∈ s.events, Leads s e (s.calledBy e)) ∧
        (∃ m, ServerHolds P s.store m) ∧
        (∀ a, s.CanDo a = true → s.Permits P a →
          ∃ s', epollStep P s a = some s') ∧
        ∀ fd, s.CanDo (.handle (.accept (some fd))) = true → fd ∉ s.opened →
          ((epollStep P s (.handle (.accept (some fd)))).isSome = true ↔
            fd < connectionMax) := by
  intro s hs
  obtain ⟨m, hserving⟩ := serving_reach hP hstore hs
  have hnext : ∀ a, s.CanDo a = true → s.Permits P a →
      ∃ s', epollStep P s a = some s' :=
    fun a hcan hpermits => hserving.exists_step hP hcan hpermits
  refine ⟨fun e he => hserving.tabled.leads he, ⟨m, hserving.holds⟩, hnext, ?_⟩
  intro fd hcan hfresh
  constructor
  · exact hserving.tabled.lt_of_accept hcan
  · intro hfd
    apply Option.isSome_iff_exists.mpr
    apply hnext _ hcan
    intro x hx
    rw [Option.mem_some_iff] at hx
    exact hx ▸ ⟨hfd, hfresh⟩

/-- What is open is watched, apart from what stays open; and a step closes the
connection whose `recv` has returned 0, and no other. -/
theorem epollServer_descriptors (P : Platform) (hP : P.Succeeds)
    (store : Server) (hstore : ∃ m, ServerHolds P store m) :
    ∀ s, Reach (epollStep P) (Permits P) (start store) s →
      (s.phase ≠ .returned →
        ∀ fd, fd ∈ s.opened ↔ s.Fixed fd ∨ (s.watched fd).isSome = true) ∧
        ∀ a s', s.Permits P a → epollStep P s a = some s' →
          ∀ fd ∈ s.opened, fd ∉ s'.opened ↔ s.endedBy a = some fd := by
  intro s hs
  obtain ⟨m, hserving⟩ := serving_reach hP hstore hs
  have htabled := hserving.tabled
  constructor
  · intro hphase fd
    constructor
    · exact htabled.opened hphase fd
    · rintro (hfixed | hwatched)
      · exact htabled.fixed fd hfixed
      · exact (htabled.usable fd hwatched).1
  · intro a s' hpermits hstep fd hfd
    have hkept : ∀ {opened : Finset ℕ}, fd ∈ opened →
        s.endedBy a = none → (fd ∉ opened ↔ s.endedBy a = some fd) := by
      intro opened hmem hended
      rw [hended]
      exact ⟨fun hnot => absurd hmem hnot, fun hnone => by cases hnone⟩
    cases hserving.step hP hpermits hstep with
    | @refused sock =>
        cases sock with
        | none => exact hkept hfd rfl
        | some x => exact hkept (Finset.mem_insert_of_mem hfd) rfl
    | @listening x ep =>
        have hmem : fd ∈ (listening x ep s).opened := by
          cases ep <;> simp [listening, hfd]
        exact hkept hmem rfl
    | waited => exact hkept hfd rfl
    | passed hevents hquiet =>
        rcases hquiet with rfl | rfl
        · exact hkept hfd rfl
        · exact hkept hfd rfl
    | accepted => exact hkept (Finset.mem_insert_of_mem hfd) rfl
    | @closed e rest r hevents hclient hwatched hcount =>
        have hended : s.endedBy (.handle (.recv r)) = some e.fd := by
          simp [endedBy, hcount, hevents]
        rw [hended, Option.some.injEq]
        simp [hfd, eq_comm]
    | @served e rest r reply store hevents hclient hwatched hcount =>
        exact hkept hfd (if_neg hcount)
    | sent => exact hkept hfd rfl

end Runs

/-! ## A sample -/

/-- Two clients are accepted; the first one sends `RSET k v`, of whose reply 3
bytes are taken, and the second one `RGET k` before that. -/
def sampleActions : List EpollAction :=
  [.entry (some 3) true (some 4), .wait [⟨3, true, false⟩],
    .handle (.accept (some 5)), .wait [⟨5, true, false⟩, ⟨3, true, false⟩],
    .handle (.recv (.data (ascii ['R', 'S', 'E', 'T', ' ', 'k', ' ', 'v']))),
    .handle (.accept (some 6)), .wait [⟨6, true, false⟩, ⟨5, false, true⟩],
    .handle (.recv (.data (ascii ['R', 'G', 'E', 'T', ' ', 'k']))),
    .handle (.send 3), .wait [⟨5, true, false⟩, ⟨3, true, false⟩]]

theorem sampleActions_reach : ∃ s,
    execute (epollStep samplePlatform) sampleActions (start sampleStore) =
      some s ∧
    Reach (epollStep samplePlatform) (Permits samplePlatform)
      (start sampleStore) s := by
  obtain ⟨s, hrun⟩ := Option.isSome_iff_exists.mp
    (by decide +kernel : (execute (epollStep samplePlatform) sampleActions
      (start sampleStore)).isSome)
  exact ⟨s, hrun, Reach.start.execute sampleActions (by decide +kernel) hrun⟩

/-- The first client hangs up. -/
theorem epollServer_safe_sample : ∃ s s',
    (∀ e ∈ s.events, Leads s e (s.calledBy e)) ∧
      epollStep samplePlatform s (.handle (.recv .closed)) = some s' := by
  obtain ⟨s, hrun, hs⟩ := sampleActions_reach
  have hcan : ∀ u ∈ execute (epollStep samplePlatform) sampleActions
      (start sampleStore), u.CanDo (.handle (.recv .closed)) = true := by
    decide +kernel
  obtain ⟨hleads, -, hnext, -⟩ := epollServer_safe samplePlatform
    samplePlatform_succeeds sampleStore ⟨_, sampleStore_holds⟩ s hs
  obtain ⟨s', hs'⟩ := hnext (.handle (.recv .closed)) (hcan s hrun)
    (fun hne => absurd rfl hne)
  exact ⟨s, s', hleads, hs'⟩

theorem epollServer_descriptors_sample : ∃ s s',
    epollStep samplePlatform s (.handle (.recv .closed)) = some s' ∧
      5 ∈ s.opened ∧ 5 ∉ s'.opened := by
  obtain ⟨s, hrun, hs⟩ := sampleActions_reach
  have hended : ∀ u ∈ execute (epollStep samplePlatform) sampleActions
      (start sampleStore), 5 ∈ u.opened ∧
        u.endedBy (.handle (.recv .closed)) = some 5 ∧
        (epollStep samplePlatform u (.handle (.recv .closed))).isSome := by
    decide +kernel
  obtain ⟨hopened, hfd, hsome⟩ := hended s hrun
  obtain ⟨s', hs'⟩ := Option.isSome_iff_exists.mp hsome
  obtain ⟨-, hcloses⟩ := epollServer_descriptors samplePlatform
    samplePlatform_succeeds sampleStore ⟨_, sampleStore_holds⟩ s hs
  exact ⟨s, s', hs', hopened, (hcloses (.handle (.recv .closed)) s'
    (fun hne => absurd rfl hne) hs' 5 hopened).mpr hfd⟩

end EpollServer

end CAdvanced
