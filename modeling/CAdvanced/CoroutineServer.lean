import CAdvanced.FrontEnds
import CAdvanced.ScheduleRuns

/-!
# The server of coroutines

`ntyco_entry.c` with the hooks of `nty_socket.c`: one coroutine accepts
connections, and each connection has a coroutine of its own.  A coroutine runs
up to the next descriptor that it polls; what the calls of the kernel return
until then is an input.
-/

namespace CAdvanced

open Fallible
open Transition

abbrev pollErr : BitVec 16 := 8

abbrev pollHup : BitVec 16 := 16

/-- Where the function of a coroutine goes on, and what it keeps on its
stack. -/
inductive Frame
  | server
  | accept (fd : ℤ)
  | serverReader (fd : ℤ)
  | recv (fd : ℤ)
  | send (fd : ℤ) (buf : List UInt8) (sent : ℕ)
  deriving DecidableEq

namespace Frame

def fd : Frame → Option ℤ
  | .server => none
  | .accept fd => some fd
  | .serverReader fd => some fd
  | .recv fd => some fd
  | .send fd _ _ => some fd

/-- The events for which a hook polls. -/
def events : Frame → BitVec 16
  | .send _ _ _ => pollOut ||| pollErr ||| pollHup
  | _ => pollIn ||| pollErr ||| pollHup

/-- The bytes that are left to be sent. -/
def unsent : Frame → List UInt8
  | .send _ buf sent => buf.drop sent
  | _ => []

end Frame

/-- What the calls of the kernel return. -/
inductive Answer
  /-- No call is made. -/
  | start
  | socket (fd : ℤ)
  /-- `accept` sets `EAGAIN`. -/
  | again
  /-- `accept` returns, and the blocks of a coroutine are granted or not. -/
  | accept (fd : ℤ) (granted : Bool)
  /-- `recv` returns, and so does the first `send` of the reply. -/
  | recv (r : Received) (ret : ℤ)
  | send (ret : ℤ)

/-- What the function can call where it stands. -/
def Frame.Calls : Frame → Answer → Bool
  | .server, .socket _ => true
  | .accept _, .again => true
  | .accept _, .accept _ _ => true
  | .serverReader _, .start => true
  | .recv _, .recv _ _ => true
  | .send _ _ _, .send _ => true
  | _, _ => false

structure NtycoServer where
  sched : Schedule
  frame : Co → Option Frame
  store : Server

namespace NtycoServer

open Schedule

@[simps] def withSched (sched : Schedule) (s : NtycoServer) : NtycoServer :=
  { s with sched := sched }

@[simps] def withFrame (co : Co) (frame : Frame) (s : NtycoServer) :
    NtycoServer :=
  { s with frame := Function.update s.frame co (some frame) }

@[simps] def withStore (store : Server) (s : NtycoServer) : NtycoServer :=
  { s with store := store }

/-- Before `ntyco_entry`. -/
def start (store : Server) : NtycoServer where
  sched := Schedule.create ∅
  frame := fun _ => none
  store := store

def onSched (a : Action) : Exec NtycoServer Unit :=
  within sched withSched (act a)

def onStore {α : Type} (m : Exec Server α) : Exec NtycoServer α :=
  within store withStore m

/-! ## The hooks -/

/-- A hook polls its descriptor, and goes on in its frame. -/
def pollInner (co : Co) (fd : ℤ) (frame : Frame) : Exec NtycoServer Unit := do
  modify (withFrame co frame)
  onSched (.poll fd frame.events)

/-- `send` up to its first poll, or to its return. -/
def sendFirst (fd : ℤ) (buf : List UInt8) (ret : ℤ) : Frame ⊕ ℤ :=
  if ret = 0 then .inr 0
  else
    let sent := if 0 < ret then ret.toNat else 0
    if sent < buf.length then .inl (.send fd buf sent)
    else .inr (if ret ≤ 0 ∧ sent = 0 then ret else sent)

/-- A turn of the loop in `send`. -/
def sendNext (fd : ℤ) (buf : List UInt8) (sent : ℕ) (ret : ℤ) : Frame ⊕ ℤ :=
  if ret ≤ 0 then .inr (if sent = 0 then ret else sent)
  else if sent + ret.toNat < buf.length then
    .inl (.send fd buf (sent + ret.toNat))
  else .inr ((sent + ret.toNat : ℕ) : ℤ)

/-! ## The coroutines -/

/-- How `server_reader` goes on behind `send`; a failure ends it. -/
def afterSend (fd : ℤ) : Frame ⊕ ℤ → Option Frame
  | .inl frame => some frame
  | .inr ret => if ret = -1 then none else some (.recv fd)

/-- A connection that ends is closed, and its coroutine returns. -/
def goOn (co : Co) (fd : ℤ) : Option Frame → Exec NtycoServer Unit
  | some frame => pollInner co fd frame
  | none => do
      onSched (.closeFd fd)
      onSched .exit

def createReader (fd : ℤ) (granted : Bool) : Exec NtycoServer Unit := do
  let co := (← get).sched.created
  onSched (.create granted)
  if granted then modify (withFrame co (.serverReader fd))

/-- The running coroutine up to its next yield. -/
def goFrame (P : Platform) (co : Co) : Frame → Answer → Exec NtycoServer Unit
  | .server, .socket fd =>
      if fd < 0 then onSched .exit
      else do
        onSched (.openFd fd)
        pollInner co fd (.accept fd)
  | .accept fd, .again => pollInner co fd (.accept fd)
  | .accept fd, .accept cli granted => do
      if 0 ≤ cli then onSched (.openFd cli)
      createReader cli granted
      pollInner co fd (.accept fd)
  | .serverReader fd, .start => pollInner co fd (.recv fd)
  | .recv fd, .recv (.data bytes) ret => do
      let reply ← onStore (readerRound P bytes)
      goOn co fd (afterSend fd (sendFirst fd reply ret))
  | .recv fd, .recv .closed _ => goOn co fd none
  | .recv fd, .recv .failed _ => pollInner co fd (.recv fd)
  | .send fd buf sent, .send ret =>
      goOn co fd (afterSend fd (sendNext fd buf sent ret))
  | _, _ => throw .assertion

def ntycoEntry (granted : Bool) : Exec NtycoServer Unit := do
  let co := (← get).sched.created
  onSched (.create granted)
  if granted then modify (withFrame co .server)
  onSched .run

inductive ServerAction
  | entry (granted : Bool)
  /-- The scheduler goes on. -/
  | loop (a : Action)
  /-- The running coroutine goes on. -/
  | go (answer : Answer)

/-- What the scheduler does of its own. -/
def isLoop : Action → Bool
  | .turn | .expire | .ready | .epoll _ | .dispatch | .tick _ => true
  | _ => false

def running (s : NtycoServer) : Option (Co × Frame) :=
  s.sched.currThread.bind (fun co => (s.frame co).map (fun frame =>
    (co, frame)))

def serverAct (P : Platform) : ServerAction → Exec NtycoServer Unit
  | .entry granted => ntycoEntry granted
  | .loop a => onSched a
  | .go answer => do
      match running (← get) with
      | some (co, frame) => goFrame P co frame answer
      | none => throw .assertion

def CanDo (s : NtycoServer) : ServerAction → Bool
  | .entry _ => s.sched.phase = .idle
  | .loop a => isLoop a && s.sched.Enabled a
  | .go answer => s.running.any (fun r => r.2.Calls answer)

/-- A fault ends the run. -/
def serverStep (P : Platform) (s : NtycoServer) (a : ServerAction) :
    Option NtycoServer :=
  if s.CanDo a then ((serverAct P a).run s).toOption.map Prod.snd else none

/-- What the kernel and the clients may do.  A descriptor that is handed out is
not in use, `accept` does not fail, and what a `recv` brings is one complete
request without a NUL, hashable and of at most 128 words; it may also fail or
find the end.  The clock obeys the rules of the scheduler. -/
def Permits (P : Platform) (s : NtycoServer) : ServerAction → Prop
  | .loop a => s.sched.Obeys a
  | .go (.socket fd) => fd ∉ s.sched.opened
  | .go (.accept fd _) => 0 ≤ fd ∧ fd ∉ s.sched.opened
  | .go (.recv (.data bytes) _) => ∃ h : 0 ∉ bytes,
      CompleteMessage ⟨bytes, h⟩ ∧
      (words ⟨bytes, h⟩).length ≤ kvstoreMaxTokens ∧
      HashableRequest P.char ⟨bytes, h⟩
  | _ => True

instance (P : Platform) (s : NtycoServer) : ∀ a, Decidable (Permits P s a)
  | .loop a => inferInstanceAs (Decidable (s.sched.Obeys a))
  | .go (.socket fd) => inferInstanceAs (Decidable (fd ∉ s.sched.opened))
  | .go (.accept fd _) =>
      inferInstanceAs (Decidable (0 ≤ fd ∧ fd ∉ s.sched.opened))
  | .go (.recv (.data bytes) _) =>
      inferInstanceAs (Decidable (∃ h : 0 ∉ bytes, CompleteMessage ⟨bytes, h⟩ ∧
        (words ⟨bytes, h⟩).length ≤ kvstoreMaxTokens ∧
        HashableRequest P.char ⟨bytes, h⟩))
  | .entry _ | .go .start | .go .again | .go (.send _) | .go (.recv .closed _)
  | .go (.recv .failed _) => inferInstanceAs (Decidable True)

end NtycoServer

end CAdvanced
