import CAdvanced.ObservedRuns
import CAdvanced.Reactor

/-!
# The epoll server of the key-value store

`epoll_entry.c` with all of its connections: the table `connection_list`, the
descriptors that epoll watches, and the batch of events that the loop works
through.  What the calls of the kernel return is an input.
-/

namespace CAdvanced

open Fallible
open Transition

/-- The functions that an entry of `connection_list` can point to. -/
inductive Callback
  | acceptCb
  | recvCb
  | sendCb
  deriving DecidableEq

/-- `recvT` is the union of `accept_callback` and `recv_callback`. -/
structure ConnectionItem where
  item : Connection
  recvT : Option Callback
  sendCallback : Option Callback

/-- An entry of `events`. -/
structure EpollEvent where
  fd : ℕ
  epollin : Bool
  epollout : Bool
  deriving DecidableEq

inductive EpollPhase
  | idle
  | looping
  | returned
  deriving DecidableEq

/-- `events` are the events of the batch that are still to be handled. -/
structure EpollServer where
  phase : EpollPhase
  listernFd : Option ℕ
  epfd : Option ℕ
  opened : Finset ℕ
  watched : ℕ → Option Interest
  connectionList : ℕ → ConnectionItem
  events : List EpollEvent
  store : Server

namespace EpollServer

/-- Before `epoll_entry`; the table is a zeroed global. -/
def start (store : Server) : EpollServer where
  phase := .idle
  listernFd := none
  epfd := none
  opened := {0, 1, 2}
  watched := fun _ => none
  connectionList := fun _ => ⟨.fresh, none, none⟩
  events := []
  store := store

section Updates

variable (fd : ℕ)

@[simps] def withPhase (phase : EpollPhase) (s : EpollServer) : EpollServer :=
  { s with phase := phase }

@[simps] def withEvents (events : List EpollEvent) (s : EpollServer) :
    EpollServer :=
  { s with events := events }

@[simps] def openFd (s : EpollServer) : EpollServer :=
  { s with opened := insert fd s.opened }

/-- A closed descriptor leaves the set of epoll. -/
@[simps] def closeFd (s : EpollServer) : EpollServer :=
  { s with
    opened := s.opened.erase fd
    watched := Function.update s.watched fd none }

@[simps] def watch (interest : Option Interest) (s : EpollServer) :
    EpollServer :=
  { s with watched := Function.update s.watched fd interest }

@[simps] def withEntry (entry : ConnectionItem) (s : EpollServer) :
    EpollServer :=
  { s with connectionList := Function.update s.connectionList fd entry }

/-- `epoll_create` fails, or hands out a descriptor. -/
@[simps] def withEpfd (ep : Option ℕ) (s : EpollServer) : EpollServer :=
  { s with epfd := ep, opened := ep.elim s.opened (insert · s.opened) }

/-- `listern_fd` listens, and its entry points to `accept_cb`. -/
@[simps] def listen (s : EpollServer) : EpollServer :=
  { s with
    listernFd := some fd
    connectionList := Function.update s.connectionList fd
      { s.connectionList fd with recvT := some .acceptCb } }

@[simps] def withCallbacks (s : EpollServer) : EpollServer :=
  { s with
    connectionList := Function.update s.connectionList fd
      { s.connectionList fd with
        recvT := some .recvCb
        sendCallback := some .sendCb } }

/-- The store, with the entry as the item that is served. -/
def itemAt (s : EpollServer) : Server :=
  Server.withItem (s.connectionList fd).item s.store

@[simps] def putItem (store : Server) (s : EpollServer) : EpollServer :=
  { s with
    store := Server.withItem s.store.item store
    connectionList := Function.update s.connectionList fd
      { s.connectionList fd with item := store.item } }

end Updates

section Callbacks

variable {α : Type} (fd : ℕ)

/-- `connection_list[fd]` is used. -/
def atEntry (m : Exec EpollServer α) : Exec EpollServer α :=
  if fd < connectionMax then m else throw .outOfBounds

def onItem (m : Exec Server α) : Exec EpollServer α :=
  atEntry fd (within (itemAt fd) (putItem fd) m)

/-- `epoll_ctl` adds a descriptor if `flag` is set, and changes one that is
watched otherwise; nobody looks at its result.  It fails for no other reason
here than a descriptor that is closed or in the wrong one of these two cases, so
the kernel never runs out of memory or watches. -/
def setEvent (event : Interest) (flag : Bool) : Exec EpollServer Unit := do
  let s ← get
  if s.epfd.isSome ∧ fd ∈ s.opened ∧ (s.watched fd).isNone = flag then
    modify (watch fd (some event))

/-- `accept` fails, or hands out a descriptor. -/
def acceptCb : Option ℕ → Exec EpollServer ℤ
  | none => return -1
  | some clientfd => do
      modify (openFd clientfd)
      setEvent clientfd .input true
      onItem clientfd CAdvanced.acceptCb
      modify (withCallbacks clientfd)
      return clientfd

def recvCb (P : Platform) (r : Received) : Exec EpollServer ℤ := do
  onItem fd (recvInto r)
  if r.count = 0 then do
    modify (watch fd none)
    modify (closeFd fd)
    return -1
  else do
    onItem fd (CAdvanced.addRlength r.count)
    setEvent fd .output false
    onItem fd (do
      let _ ← kvstoreRequest P
      measureReply)
    return r.count

/-- Whatever `send` returns, the connection waits for input again. -/
def sendCb (ret : ℤ) : Exec EpollServer ℤ := do
  let _ ← onItem fd sendReply
  setEvent fd .input false
  return ret

end Callbacks

/-! ## The event loop -/

/-- What the call of the kernel in a callback returns. -/
inductive Result
  /-- No callback is called. -/
  | skip
  | accept (clientfd : Option ℕ)
  | recv (r : Received)
  | send (ret : ℤ)

def call (P : Platform) (fd : ℕ) : Callback → Result → Exec EpollServer ℤ
  | .acceptCb, .accept clientfd => acceptCb clientfd
  | .recvCb, .recv r => recvCb fd P r
  | .sendCb, .send ret => sendCb fd ret
  | _, _ => throw .assertion

/-- The body of the loop over `events`. -/
def handle (P : Platform) (result : Result) : Exec EpollServer Unit := do
  match (← get).events with
  | [] => throw .assertion
  | e :: rest => do
      modify (withEvents rest)
      if e.epollin then do
        let callback ← atEntry e.fd
          (load (fun s => (s.connectionList e.fd).recvT))
        let _ ← call P e.fd callback result
      else if e.epollout then do
        let callback ← atEntry e.fd
          (load (fun s => (s.connectionList e.fd).sendCallback))
        let _ ← call P e.fd callback result

/-- `epoll_entry` up to its loop; `bind` fails on a socket that there is
not. -/
def epollEntry (sock : Option ℕ) (bound : Bool) (ep : Option ℕ) :
    Exec EpollServer Unit := do
  match sock with
  | none => modify (withPhase .returned)
  | some fd => do
      modify (openFd fd)
      if bound then do
        atEntry fd (modify (listen fd))
        modify (withEpfd ep)
        setEvent fd .input true
        modify (withPhase .looping)
      else modify (withPhase .returned)

inductive EpollAction
  | entry (sock : Option ℕ) (bound : Bool) (ep : Option ℕ)
  /-- `epoll_wait` fails without events. -/
  | wait (batch : List EpollEvent)
  /-- The next event of the batch is handled. -/
  | handle (result : Result)

def epollAct (P : Platform) : EpollAction → Exec EpollServer Unit
  | .entry sock bound ep => epollEntry sock bound ep
  | .wait batch => modify (withEvents batch)
  | .handle result => handle P result

/-- The callback that an event leads to. -/
def calledBy (s : EpollServer) (e : EpollEvent) : Option Callback :=
  if e.epollin then (s.connectionList e.fd).recvT
  else if e.epollout then (s.connectionList e.fd).sendCallback
  else none

def Calls : Option Callback → Result → Bool
  | some .acceptCb, .accept _ => true
  | some .recvCb, .recv _ => true
  | some .sendCb, .send _ => true
  | none, .skip => true
  | _, _ => false

def CanDo (s : EpollServer) : EpollAction → Bool
  | .entry _ _ _ => s.phase = .idle
  | .wait _ => s.phase = .looping ∧ s.events = []
  | .handle result => s.phase = .looping ∧
      s.events.head?.any (fun e => Calls (s.calledBy e) result)

/-- A fault ends the run. -/
def epollStep (P : Platform) (s : EpollServer) (a : EpollAction) :
    Option EpollServer :=
  if s.CanDo a then ((epollAct P a).run s).toOption.map Prod.snd else none

/-! ## What the kernel and the clients may do -/

/-- The request that stands in the receive buffer behind `recv`: the bytes that
were received, and what earlier ones have left behind them. -/
def requestAt (s : EpollServer) (fd : ℕ) (r : Received) : Option CString :=
  textAt ((s.connectionList fd).item.receive r.bytes).rbuffer 0

/-- The request is complete, and the bytes of the connection can still be
counted. -/
def CanServe (P : Platform) (s : EpollServer) (fd : ℕ) (r : Received) : Prop :=
  inInt ((s.connectionList fd).item.rlength + r.count) ∧
    ∃ text ∈ s.requestAt fd r, CompleteMessage text ∧
      (words text).length ≤ kvstoreMaxTokens ∧ HashableRequest P.char text

/-- An event of a batch is one that the descriptor is watched for. -/
def Reported (s : EpollServer) (e : EpollEvent) : Prop :=
  ∃ interest ∈ s.watched e.fd, (e.epollin = true → interest = .input) ∧
    (e.epollout = true → interest = .output)

/-- A descriptor that is handed out is not in use and below the number of
entries, a batch has at most one event of a descriptor and only of watched ones,
and every `recv` but the one at the end leaves a complete, hashable request in
the buffer: it does not fail, and brings no fragment and no blank line. -/
def Permits (P : Platform) (s : EpollServer) : EpollAction → Prop
  | .entry sock _ ep =>
      (∀ fd ∈ sock, fd < connectionMax ∧ fd ∉ s.opened) ∧
        ∀ fd ∈ ep, fd ∉ s.opened ∧ some fd ≠ sock
  | .wait batch => (batch.map EpollEvent.fd).Nodup ∧ ∀ e ∈ batch, s.Reported e
  | .handle (.accept clientfd) =>
      ∀ fd ∈ clientfd, fd < connectionMax ∧ fd ∉ s.opened
  | .handle (.recv r) => r.count ≠ 0 → ∀ e ∈ s.events.head?,
      s.CanServe P e.fd r
  | _ => True

instance (P : Platform) (s : EpollServer) (fd : ℕ) (r : Received) :
    Decidable (s.CanServe P fd r) :=
  inferInstanceAs (Decidable (_ ∧ ∃ text ∈ _, _))

instance (s : EpollServer) (e : EpollEvent) : Decidable (s.Reported e) :=
  inferInstanceAs (Decidable (∃ interest ∈ _, _))

instance (P : Platform) (s : EpollServer) : ∀ a, Decidable (Permits P s a)
  | .entry sock _ ep => inferInstanceAs (Decidable ((∀ fd ∈ sock, _) ∧
      ∀ fd ∈ ep, _))
  | .wait batch => inferInstanceAs (Decidable (_ ∧ ∀ e ∈ batch, _))
  | .handle (.accept clientfd) =>
      inferInstanceAs (Decidable (∀ fd ∈ clientfd, _))
  | .handle (.recv r) => inferInstanceAs (Decidable (r.count ≠ 0 →
      ∀ e ∈ s.events.head?, s.CanServe P e.fd r))
  | .handle .skip | .handle (.send _) => inferInstanceAs (Decidable True)

end EpollServer

end CAdvanced
