import CAdvanced.FrontEnds
import CAdvanced.TransitionSystem

/-!
# The reactor of Chapter 2

The callbacks of `c-reactor/reactor.c` on the connections that the event loop
serves, one event at a time.  The listening socket is watched all the time.
`peerClosed` and `stream`, the bytes that were received since a connection was
accepted, are recorded for the statements only.  The descriptors are those below
the number of entries of `connection_list`, into which `accept_cb` and the event
loop index without a check.
-/

namespace CAdvanced

open Fallible
open Transition

abbrev connectionMax : ℕ := 1024

/-- `EPOLLIN` or `EPOLLOUT`. -/
inductive Interest
  | input
  | output
  deriving DecidableEq

structure Reactor where
  connectionList : Fin connectionMax → Connection
  epoll : Fin connectionMax → Option Interest
  opened : Fin connectionMax → Bool
  peerClosed : Fin connectionMax → Bool
  stream : Fin connectionMax → List UInt8

namespace Reactor

def initial : Reactor where
  connectionList := fun _ => .fresh
  epoll := fun _ => none
  opened := fun _ => false
  peerClosed := fun _ => false
  stream := fun _ => []

section Updates

variable (fd : Fin connectionMax)

@[simps] def withItem (item : Connection) (s : Reactor) : Reactor :=
  { s with connectionList := Function.update s.connectionList fd item }

@[simps] def watch (interest : Option Interest) (s : Reactor) : Reactor :=
  { s with epoll := Function.update s.epoll fd interest }

/-- A client connects and gets the descriptor. -/
@[simps] def connect (s : Reactor) : Reactor :=
  { s with
    opened := Function.update s.opened fd true
    peerClosed := Function.update s.peerClosed fd false
    stream := Function.update s.stream fd [] }

@[simps] def close (s : Reactor) : Reactor :=
  { s with opened := Function.update s.opened fd false }

@[simps] def hangUp (s : Reactor) : Reactor :=
  { s with peerClosed := Function.update s.peerClosed fd true }

/-- The bytes that `recv` puts at an offset of the receive buffer. -/
def overwrite (index : ℕ) (bytes buffer : List UInt8) : List UInt8 :=
  buffer.take index ++ bytes ++ buffer.drop (index + bytes.length)

@[simps] def deliver (index : ℕ) (bytes : List UInt8) (s : Reactor) :
    Reactor :=
  { s with
    connectionList := Function.update s.connectionList fd
      { s.connectionList fd with
        rbuffer := overwrite index bytes (s.connectionList fd).rbuffer }
    stream := Function.update s.stream fd (s.stream fd ++ bytes) }

@[simps] def withRlength (n : ℤ) (s : Reactor) : Reactor :=
  { s with
    connectionList := Function.update s.connectionList fd
      { s.connectionList fd with rlength := n } }

/-- What `sprintf` leaves in the send buffer. -/
@[simps] def respond (text : List UInt8) (s : Reactor) : Reactor :=
  { s with
    connectionList := Function.update s.connectionList fd
      { s.connectionList fd with
        wbuffer := overwrite 0 (text ++ [0]) (s.connectionList fd).wbuffer
        wlength := text.length } }

end Updates

/-! ## The callbacks -/

def httpText : List UInt8 :=
  ascii ("HTTP/1.1 200 OK\r\n" ++
    "Content-Type: text/html\r\n" ++
    "Content-Length: 95\r\n\r\n" ++
    "<html><head><title>Hello, Reactor!</title></head>" ++
    "<body><h1>Hello, Reactor!</h1></body></html>\r\n").toList

section Callbacks

variable (fd : Fin connectionMax)

/-- `epoll_ctl` with `EPOLL_CTL_ADD` or `EPOLL_CTL_MOD`. -/
def setEvent (event : Interest) : Exec Reactor Unit :=
  modify (watch fd (some event))

def httpResponse : Exec Reactor ℤ := do
  modify (respond fd httpText)
  return ((← get).connectionList fd).wlength

/-- `accept` fails, or hands out a descriptor. -/
def acceptCb : Option (Fin connectionMax) → Exec Reactor ℤ
  | none => return -1
  | some clientfd => do
      modify (connect clientfd)
      setEvent clientfd .input
      modify (withItem clientfd .fresh)
      return (clientfd : ℕ)

/-- `recv` at `rbuffer + index`. -/
def recvAt (index : ℤ) (r : Received) : Exec Reactor ℤ := do
  if r.bytes = [] ∨ 0 ≤ index ∧ index + r.bytes.length ≤ bufferLength then do
    modify (deliver fd index.toNat r.bytes)
    return r.count
  else throw .outOfBounds

/-- `rlength += count` is an `int` addition. -/
def addRlength (count : ℤ) : Exec Reactor Unit := do
  let n := ((← get).connectionList fd).rlength + count
  if inInt n then modify (withRlength fd n)
  else throw .intOverflow

def recvCb (r : Received) : Exec Reactor ℤ := do
  let index := ((← get).connectionList fd).rlength
  let count ← recvAt fd index r
  if count = 0 then do
    modify (watch fd none)
    modify (close fd)
    return -1
  else do
    addRlength fd count
    setEvent fd .output
    let _ ← httpResponse fd
    return count

/-- `send` gets the first `wlength` bytes of `wbuffer`. -/
def sendCb (send : List UInt8 → ℤ) : Exec Reactor ℤ := do
  let item := (← get).connectionList fd
  let count := send (item.wbuffer.take item.wlength.toNat)
  setEvent fd .input
  return count

end Callbacks

/-! ## Events -/

inductive Event
  | accept (clientfd : Option (Fin connectionMax))
  /-- The peer closes its side. -/
  | hangUp (fd : Fin connectionMax)
  /-- `EPOLLIN`, and what `recv` returns. -/
  | input (fd : Fin connectionMax) (r : Received)
  /-- `EPOLLOUT`, and what `send` returns. -/
  | output (fd : Fin connectionMax) (send : List UInt8 → ℤ)

/-- The state that a callback leaves, unless it faults. -/
def after (m : Exec Reactor ℤ) (s : Reactor) : Option Reactor :=
  (m.run s).toOption.map Prod.snd

def reactorStep (s : Reactor) : Event → Option Reactor
  | .accept none => after (acceptCb none) s
  | .accept (some fd) =>
      if s.opened fd = false then after (acceptCb (some fd)) s else none
  | .hangUp fd =>
      if s.opened fd = true then some (hangUp fd s) else none
  | .input fd r =>
      if s.epoll fd = some .input then after (recvCb fd r) s else none
  | .output fd send =>
      if s.epoll fd = some .output then after (sendCb fd send) s else none

/-- The bytes that `recv` may write. -/
def window (s : Reactor) (fd : Fin connectionMax) : ℤ :=
  bufferLength - (s.connectionList fd).rlength

/-- `recv` returns 0 exactly when its window is empty or the peer has closed,
and a positive count of bytes that fit the window otherwise. -/
def RecvContract (s : Reactor) : Event → Prop
  | .input fd r =>
      (r.count = 0 ↔ s.window fd = 0 ∨ s.peerClosed fd = true) ∧
        (r.count ≠ 0 → 1 ≤ r.count ∧ r.count ≤ s.window fd)
  | _ => True

instance (s : Reactor) : ∀ e, Decidable (RecvContract s e)
  | .input _ _ => inferInstanceAs (Decidable (_ ∧ _))
  | .accept _ | .hangUp _ | .output _ _ => isTrue trivial

/-- Only descriptors are closed whose peer has closed its side. -/
def ClosesEnded (s : Reactor) (e : Event) : Prop :=
  ∀ s' ∈ reactorStep s e, ∀ fd, s.opened fd = true → s'.opened fd = false →
    s.peerClosed fd = true

/-- The stream that was received is shorter than the buffer, or has ended. -/
def RoomLeft (s : Reactor) : Event → Prop
  | .input fd _ =>
      s.peerClosed fd = true ∨ (s.stream fd).length < bufferLength
  | _ => True

instance (s : Reactor) : ∀ e, Decidable (RoomLeft s e)
  | .input _ _ => inferInstanceAs (Decidable (_ ∨ _))
  | .accept _ | .hangUp _ | .output _ _ => isTrue trivial

/-! ## The receive window -/

/-- `rlength` counts the whole stream of an open connection. -/
structure Counted (s : Reactor) : Prop where
  opened : ∀ fd, s.epoll fd ≠ none → s.opened fd = true
  rlength : ∀ fd, s.opened fd = true →
    (s.connectionList fd).rlength = (s.stream fd).length
  fits : ∀ fd, s.opened fd = true → (s.stream fd).length ≤ bufferLength

theorem counted_initial : Counted initial := by
  constructor <;> simp [initial]

section Steps

variable {s s' : Reactor} {fd : Fin connectionMax} {r : Received}

theorem after_of_returns {m : Exec Reactor ℤ} {Q : ℤ → Reactor → Prop}
    (h : Returns m s Q) (hafter : after m s = some s') : ∃ a, Q a s' := by
  obtain ⟨a, t, hrun, hQ⟩ := h
  rw [after, hrun] at hafter
  cases hafter
  exact ⟨a, hQ⟩

theorem deliver_nil (index : ℕ) : deliver fd index [] s = s := by
  simp [deliver, overwrite]

/-- The state behind a count of 0. -/
theorem returns_recvCb_close (hzero : r.count = 0) :
    Returns (recvCb fd r) s (fun _ s' => s' = close fd (watch fd none s)) := by
  have hbytes : r.bytes = [] := by
    cases r with
    | data bytes =>
        rw [Received.count, Nat.cast_eq_zero] at hzero
        exact List.eq_nil_of_length_eq_zero hzero
    | closed => rfl
    | failed => rfl
  simp [recvCb, recvAt, hbytes, hzero, deliver_nil]

theorem returns_recvAt {index : ℤ} {Q : ℤ → Reactor → Prop}
    (hindex : 0 ≤ index) (hend : index + r.bytes.length ≤ bufferLength)
    (hQ : Q r.count (deliver fd index.toNat r.bytes s)) :
    Returns (recvAt fd index r) s Q := by
  unfold recvAt
  rw [if_pos (Or.inr ⟨hindex, hend⟩)]
  simpa using hQ

theorem returns_addRlength {count : ℤ} {Q : Unit → Reactor → Prop}
    (hint : inInt ((s.connectionList fd).rlength + count))
    (hQ : Q () (withRlength fd ((s.connectionList fd).rlength + count) s)) :
    Returns (addRlength fd count) s Q := by
  simpa [addRlength, hint] using hQ

/-- The state behind a positive count. -/
def received (fd : Fin connectionMax) (r : Received) (s : Reactor) : Reactor :=
  respond fd httpText (watch fd (some .output)
    (withRlength fd ((s.connectionList fd).rlength + r.count)
      (deliver fd (s.connectionList fd).rlength.toNat r.bytes s)))

theorem length_bytes_of_pos (hpos : 1 ≤ r.count) :
    (r.bytes.length : ℤ) = r.count := by
  cases r with
  | data bytes => rfl
  | closed => cases hpos
  | failed => cases hpos

theorem returns_recvCb_data (hpos : 1 ≤ r.count)
    (hrlength : 0 ≤ (s.connectionList fd).rlength)
    (hfits : r.count ≤ s.window fd) :
    Returns (recvCb fd r) s (fun _ s' => s' = received fd r s) := by
  have hend : (s.connectionList fd).rlength + r.count ≤ bufferLength := by
    unfold window at hfits
    omega
  have hint : inInt ((s.connectionList fd).rlength + r.count) := by
    have hbuffer : (bufferLength : ℤ) ≤ intMax := by decide
    unfold inInt
    omega
  have hne : r.count ≠ 0 := by omega
  simp only [recvCb, returns_bind, Fallible.returns_get]
  apply returns_recvAt hrlength (by rw [length_bytes_of_pos hpos]; exact hend)
  rw [if_neg hne, returns_bind]
  apply returns_addRlength
  · simpa using hint
  · simp [setEvent, httpResponse, received]

/-- The callback worked on one descriptor. -/
theorem Counted.update (h : Counted s) (fd : Fin connectionMax)
    (hothers : ∀ fd', fd' ≠ fd → s'.epoll fd' = s.epoll fd' ∧
      s'.opened fd' = s.opened fd' ∧ s'.stream fd' = s.stream fd' ∧
      s'.connectionList fd' = s.connectionList fd')
    (hepoll : s'.epoll fd ≠ none → s'.opened fd = true)
    (hrlength : s'.opened fd = true →
      (s'.connectionList fd).rlength = (s'.stream fd).length ∧
        (s'.stream fd).length ≤ bufferLength) : Counted s' := by
  constructor
  · intro fd'
    by_cases hfd : fd' = fd
    · subst hfd
      exact hepoll
    · rw [(hothers fd' hfd).1, (hothers fd' hfd).2.1]
      exact h.opened fd'
  · intro fd'
    by_cases hfd : fd' = fd
    · subst hfd
      exact fun hopened => (hrlength hopened).1
    · obtain ⟨-, hopened, hstream, hlist⟩ := hothers fd' hfd
      rw [hopened, hstream, hlist]
      exact h.rlength fd'
  · intro fd'
    by_cases hfd : fd' = fd
    · subst hfd
      exact fun hopened => (hrlength hopened).2
    · obtain ⟨-, hopened, hstream, -⟩ := hothers fd' hfd
      rw [hopened, hstream]
      exact h.fits fd'

theorem counted_received (h : Counted s) (hopened : s.opened fd = true)
    (hpos : 1 ≤ r.count) (hfits : r.count ≤ s.window fd) :
    Counted (received fd r s) := by
  have hcount := h.rlength fd hopened
  have hlength := length_bytes_of_pos hpos
  unfold window at hfits
  apply h.update fd
  · intro fd' hfd
    refine ⟨Function.update_of_ne hfd _ _, rfl, Function.update_of_ne hfd _ _,
      ?_⟩
    simp only [received, respond_connectionList, watch_connectionList,
      withRlength_connectionList, deliver_connectionList,
      Function.update_of_ne hfd]
  · intro _
    exact hopened
  · intro _
    simp only [received, respond_connectionList, respond_stream, watch_stream,
      watch_connectionList, withRlength_connectionList, withRlength_stream,
      deliver_stream, deliver_connectionList, Function.update_self,
      List.length_append]
    constructor
    · push_cast
      omega
    · omega

theorem counted_close (h : Counted s) :
    Counted (close fd (watch fd none s)) := by
  apply h.update fd
  · intro fd' hfd
    simp [hfd]
  · intro hwatched
    simp at hwatched
  · intro hopened
    simp at hopened

/-- What an event does, when `recv` keeps its contract. -/
inductive Happens (s : Reactor) : Event → Reactor → Prop
  | accept_failed : Happens s (.accept none) s
  | accepted (fd : Fin connectionMax) (hclosed : s.opened fd = false) :
      Happens s (.accept (some fd))
        (withItem fd .fresh (watch fd (some .input) (connect fd s)))
  | hungUp (fd : Fin connectionMax) (hopened : s.opened fd = true) :
      Happens s (.hangUp fd) (hangUp fd s)
  | input_end (fd : Fin connectionMax) (r : Received)
      (hopened : s.opened fd = true)
      (hend : s.window fd = 0 ∨ s.peerClosed fd = true) :
      Happens s (.input fd r) (close fd (watch fd none s))
  | input_data (fd : Fin connectionMax) (r : Received)
      (hopened : s.opened fd = true) (hroom : s.window fd ≠ 0)
      (hpos : 1 ≤ r.count) (hfits : r.count ≤ s.window fd) :
      Happens s (.input fd r) (received fd r s)
  | output (fd : Fin connectionMax) (send : List UInt8 → ℤ)
      (hopened : s.opened fd = true) :
      Happens s (.output fd send) (watch fd (some .input) s)

theorem happens_of_reactorStep {e : Event} (h : Counted s)
    (hrecv : RecvContract s e) (hstep : reactorStep s e = some s') :
    Happens s e s' := by
  cases e with
  | accept clientfd =>
      cases clientfd with
      | none =>
          cases hstep
          exact .accept_failed
      | some fd =>
          simp only [reactorStep] at hstep
          split_ifs at hstep with hclosed
          cases hstep
          exact .accepted fd hclosed
  | hangUp fd =>
      simp only [reactorStep] at hstep
      split_ifs at hstep with hopened
      cases hstep
      exact .hungUp fd hopened
  | input fd r =>
      simp only [reactorStep] at hstep
      split_ifs at hstep with hwatched
      have hopened := h.opened fd (by rw [hwatched]; simp)
      by_cases hzero : r.count = 0
      · obtain ⟨a, rfl⟩ :=
          after_of_returns (returns_recvCb_close hzero) hstep
        exact .input_end fd r hopened (hrecv.1.mp hzero)
      · obtain ⟨hpos, hfits⟩ := hrecv.2 hzero
        have hrlength : 0 ≤ (s.connectionList fd).rlength := by
          rw [h.rlength fd hopened]
          exact Int.natCast_nonneg _
        obtain ⟨a, rfl⟩ :=
          after_of_returns (returns_recvCb_data hpos hrlength hfits) hstep
        exact .input_data fd r hopened
          (fun hroom => hzero (hrecv.1.mpr (.inl hroom))) hpos hfits
  | output fd send =>
      simp only [reactorStep] at hstep
      split_ifs at hstep with hwatched
      cases hstep
      exact .output fd send (h.opened fd (by rw [hwatched]; simp))

theorem counted_happens {e : Event} (h : Counted s) (hhappens : Happens s e s') :
    Counted s' := by
  cases hhappens with
  | accept_failed => exact h
  | accepted fd hclosed =>
      apply h.update fd
      · intro fd' hfd
        simp [hfd]
      · simp
      · simp [Connection.fresh]
  | hungUp fd hopened =>
      exact ⟨h.opened, h.rlength, h.fits⟩
  | input_end fd r hopened hend => exact counted_close h
  | input_data fd r hopened hroom hpos hfits =>
      exact counted_received h hopened hpos hfits
  | output fd send hopened =>
      apply h.update fd
      · intro fd' hfd
        simp [hfd]
      · intro _
        exact hopened
      · intro _
        exact ⟨h.rlength fd hopened, h.fits fd hopened⟩

/-- The window of an open connection is empty when its stream has filled the
buffer. -/
theorem Counted.window_eq_zero (h : Counted s) (hopened : s.opened fd = true) :
    s.window fd = 0 ↔ ¬ (s.stream fd).length < bufferLength := by
  have hcount := h.rlength fd hopened
  have hfits := h.fits fd hopened
  unfold window
  omega

theorem closesEnded_iff_roomLeft {e : Event} (h : Counted s)
    (hhappens : Happens s e s') (hstep : reactorStep s e = some s') :
    ClosesEnded s e ↔ RoomLeft s e := by
  unfold ClosesEnded
  simp only [hstep, Option.mem_some_iff, forall_eq']
  cases hhappens with
  | accept_failed =>
      simp only [RoomLeft, iff_true]
      intro fd hopened hclosed
      rw [hopened] at hclosed
      cases hclosed
  | accepted fd hclosed =>
      simp only [RoomLeft, iff_true]
      intro fd' hopened hclosed'
      by_cases hfd : fd' = fd
      · simp [hfd] at hclosed'
      · simp [hfd, hopened] at hclosed'
  | hungUp fd hopened =>
      simp only [RoomLeft, iff_true]
      intro fd' hopened' hclosed
      rw [hangUp_opened, hopened'] at hclosed
      cases hclosed
  | input_end fd r hopened hend =>
      simp only [RoomLeft]
      rw [h.window_eq_zero hopened] at hend
      constructor
      · intro hends
        exact .inl (hends fd hopened (by simp))
      · intro hroom fd' hopened' hclosed
        by_cases hfd : fd' = fd
        · subst hfd
          rcases hend with hfull | hpeer
          · exact hroom.resolve_right hfull
          · exact hpeer
        · simp [hfd, hopened'] at hclosed
  | input_data fd r hopened hroom hpos hfits =>
      simp only [RoomLeft]
      rw [ne_eq, h.window_eq_zero hopened, not_not] at hroom
      refine iff_of_true ?_ (.inr hroom)
      intro fd' hopened' hclosed
      change s.opened fd' = false at hclosed
      rw [hopened'] at hclosed
      cases hclosed
  | output fd send hopened =>
      simp only [RoomLeft, iff_true]
      intro fd' hopened' hclosed
      rw [watch_opened, hopened'] at hclosed
      cases hclosed

end Steps

/-- The reactor hangs up on nobody exactly when every stream that it serves
ends before it has filled the buffer. -/
theorem closesEnded_iff {events : List Event} {s : Reactor}
    (hrun : execute reactorStep events initial = some s)
    (hrecv : Heeds reactorStep RecvContract events initial) :
    Heeds reactorStep ClosesEnded events initial ↔
      Heeds reactorStep RoomLeft events initial := by
  apply heeds_iff_of_invariant ?_ ?_ counted_initial hrecv hrun
  · intro s e s' h hrecv hstep
    exact counted_happens h (happens_of_reactorStep h hrecv hstep)
  · intro s e s' h hrecv hstep
    exact closesEnded_iff_roomLeft h (happens_of_reactorStep h hrecv hstep)
      hstep

def shortSession : List Event :=
  [.accept (some 0), .input 0 (.data [71]), .output 0 (fun text => text.length),
    .hangUp 0, .input 0 .closed]

theorem closesEnded_iff_sample :
    (execute reactorStep shortSession initial).isSome = true ∧
      Heeds reactorStep ClosesEnded shortSession initial := by
  have hsome : (execute reactorStep shortSession initial).isSome = true := by
    decide +kernel
  obtain ⟨s, hrun⟩ := Option.isSome_iff_exists.mp hsome
  exact ⟨hsome, (closesEnded_iff hrun (by decide +kernel)).mpr
    (by decide +kernel)⟩

/-- A client sends as many bytes as the buffer holds, and then some more. -/
def fullBuffer : List Event :=
  [.accept (some 0), .input 0 (.data (List.replicate bufferLength 71)),
    .output 0 (fun text => text.length)]

set_option maxRecDepth 4096 in
/-- The client is disconnected though it has not closed its side. -/
theorem closesEnded_fullBuffer :
    (execute reactorStep (fullBuffer ++ [.input 0 (.data [])]) initial).isSome
        = true ∧
      Heeds reactorStep RecvContract (fullBuffer ++ [.input 0 (.data [])])
        initial ∧
      ¬ Heeds reactorStep ClosesEnded (fullBuffer ++ [.input 0 (.data [])])
        initial := by
  refine ⟨by decide +kernel, by decide +kernel, ?_⟩
  have hrun : ((execute reactorStep fullBuffer initial).any (fun s =>
      s.opened 0 && !s.peerClosed 0 &&
        (reactorStep s (.input 0 (.data []))).any (fun s' => !s'.opened 0)))
      = true := by
    decide +kernel
  intro hheeds
  obtain ⟨s, hfull, hs⟩ := (Option.any_eq_true _ _).mp hrun
  simp only [Bool.and_eq_true, Bool.not_eq_true'] at hs
  obtain ⟨⟨hopened, hpeer⟩, hclosed⟩ := hs
  obtain ⟨s', hstep, hs'⟩ := (Option.any_eq_true _ _).mp hclosed
  have hends := ((heeds_append.mp hheeds).2 s hfull).1 s' hstep 0 hopened
    (by simpa using hs')
  rw [hpeer] at hends
  cases hends

end Reactor

end CAdvanced
