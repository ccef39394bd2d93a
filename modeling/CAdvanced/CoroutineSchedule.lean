import CAdvanced.FallibleExecution
import CAdvanced.OrderedIndex
import CAdvanced.TransitionSystem

/-!
# The coroutine scheduler

`nty_schedule.c` and `nty_coroutine.c` with the waiting of `nty_socket.c`.  A
coroutine runs until it yields; what it calls while it runs is an input, and so
are the clock, the descriptors and the events that `epoll_wait` reports.  A
coroutine is the serial number of its block, and every operation on a queue or a
tree reads through the records of its members, which must be live.
-/

namespace CAdvanced

open Fallible
open Transition

inductive CoroutineStatus
  | waitRead
  | waitWrite
  | new
  | ready
  | exited
  | busy
  | sleeping
  | expired
  | fdeof
  | detach
  | cancelled
  | pendingRuncompute
  | runcompute
  | waitIoRead
  | waitIoWrite
  | waitMulti
  deriving DecidableEq

namespace CoroutineStatus

/-- The constant of the enumeration. -/
def value : CoroutineStatus → BitVec 32
  | .waitRead => 0
  | .waitWrite => 1
  | .new => 2
  | .ready => 3
  | .exited => 4
  | .busy => 5
  | .sleeping => 6
  | .expired => 7
  | .fdeof => 8
  | .detach => 9
  | .cancelled => 10
  | .pendingRuncompute => 11
  | .runcompute => 12
  | .waitIoRead => 13
  | .waitIoWrite => 14
  | .waitMulti => 15

/-- `BIT(x)`. -/
def bit (x : CoroutineStatus) : BitVec 32 := 1#32 <<< x.value

/-- `CLEARBIT(x)`. -/
def clearBit (x : CoroutineStatus) : BitVec 32 := ~~~x.bit

end CoroutineStatus

abbrev Status := BitVec 32

/-- `status & BIT(x)`. -/
def Status.has (status : Status) (x : CoroutineStatus) : Bool :=
  status &&& x.bit ≠ 0

abbrev pollIn : BitVec 16 := 1

abbrev pollOut : BitVec 16 := 4

/-- The block of a coroutine, by its serial number. -/
abbrev Co := ℕ

/-- Where a coroutine goes on when it is resumed. -/
inductive Context
  /-- At the start of its function. -/
  | entry
  /-- Behind the yield of `nty_poll_inner`. -/
  | polling (fd : ℤ)
  /-- Behind a yield of its own. -/
  | requeued
  /-- Behind the last yield of `_exec`. -/
  | exited
  deriving DecidableEq

structure Coroutine where
  status : Status
  id : ℤ
  fd : ℤ
  events : BitVec 16
  ops : ℕ
  sleepUsecs : ℕ
  context : Context

/-- A ready descriptor, and whether `EPOLLHUP` is set. -/
structure PollEvent where
  fd : ℤ
  eof : Bool
  deriving DecidableEq

/-- Where `nty_schedule_run` is. -/
inductive Phase
  /-- It has not been called. -/
  | idle
  | turning
  | expiring
  | readying (last : Option Co)
  | polling
  | dispatching
  /-- It has returned. -/
  | done
  deriving DecidableEq

/-- The loop over the ready queue ends behind the coroutine that was its last
one when the loop began. -/
def Phase.behind (co : Co) : Phase → Phase
  | .readying last => if last = some co then .polling else .readying last
  | phase => phase

def Phase.isReadying : Phase → Bool
  | .readying _ => true
  | _ => false

/-- `elapsed` are the microseconds since `birth`, and `eventlist` the events
that are not handled yet, the next one in front. -/
structure Schedule where
  coroutine : Co → Option Coroutine
  created : ℕ
  spawned : ℤ
  currThread : Option Co
  ready : List Co
  sleeping : List Co
  waiting : List Co
  eventlist : List PollEvent
  elapsed : ℕ
  poller : Finset ℤ
  opened : Finset ℤ
  phase : Phase

namespace Schedule

/-- What `nty_schedule_create` returns, on the descriptors that are open. -/
def create (opened : Finset ℤ) : Schedule where
  coroutine := fun _ => none
  created := 0
  spawned := 0
  currThread := none
  ready := []
  sleeping := []
  waiting := []
  eventlist := []
  elapsed := 0
  poller := ∅
  opened := opened
  phase := .idle

@[simps] def withCo (co : Co) (c : Option Coroutine) (s : Schedule) :
    Schedule :=
  { s with coroutine := Function.update s.coroutine co c }

@[simps] def withCreated (n : ℕ) (s : Schedule) : Schedule :=
  { s with created := n }

@[simps] def withSpawned (n : ℤ) (s : Schedule) : Schedule :=
  { s with spawned := n }

@[simps] def withCurr (co : Option Co) (s : Schedule) : Schedule :=
  { s with currThread := co }

@[simps] def withReady (l : List Co) (s : Schedule) : Schedule :=
  { s with ready := l }

@[simps] def withSleeping (l : List Co) (s : Schedule) : Schedule :=
  { s with sleeping := l }

@[simps] def withWaiting (l : List Co) (s : Schedule) : Schedule :=
  { s with waiting := l }

@[simps] def withEventlist (l : List PollEvent) (s : Schedule) : Schedule :=
  { s with eventlist := l }

@[simps] def withElapsed (t : ℕ) (s : Schedule) : Schedule :=
  { s with elapsed := t }

@[simps] def withPoller (fds : Finset ℤ) (s : Schedule) : Schedule :=
  { s with poller := fds }

@[simps] def withOpened (fds : Finset ℤ) (s : Schedule) : Schedule :=
  { s with opened := fds }

@[simps] def withPhase (phase : Phase) (s : Schedule) : Schedule :=
  { s with phase := phase }

/-! ## Records, queues and trees -/

def deref (co : Co) : Exec Schedule Coroutine :=
  load (fun s => s.coroutine co)

def change (co : Co) (f : Coroutine → Coroutine) : Exec Schedule Unit := do
  let c ← deref co
  modify (withCo co (some (f c)))

def setStatus (co : Co) (status : Status) : Exec Schedule Unit :=
  change co (fun c => { c with status := status })

/-- `co->status |= mask`. -/
def orStatus (co : Co) (mask : Status) : Exec Schedule Unit :=
  change co (fun c => { c with status := c.status ||| mask })

/-- All members of a queue or a tree have their records. -/
def Linked (s : Schedule) (l : List Co) : Prop :=
  ∀ co ∈ l, (s.coroutine co).isSome

instance (s : Schedule) (l : List Co) : Decidable (s.Linked l) :=
  inferInstanceAs (Decidable (∀ co ∈ l, _))

def traverse (nodes : Schedule → List Co) : Exec Schedule (List Co) := do
  let s ← get
  if s.Linked (nodes s) then return nodes s else throw .badAddress

/-- `TAILQ_INSERT_TAIL` on the ready queue.  A node that is linked twice would
destroy the queue. -/
def tailqInsertTail (co : Co) : Exec Schedule Unit := do
  let l ← traverse ready
  let _ ← deref co
  if co ∈ l then throw .badAddress
  else modify (withReady (l ++ [co]))

/-- One of the trees that `RB_GENERATE` makes: where its nodes are, and the
field by which they are ordered. -/
structure Tree (κ : Type) where
  nodes : Schedule → List Co
  withNodes : List Co → Schedule → Schedule
  key : Coroutine → κ

def sleepTree : Tree ℕ where
  nodes := sleeping
  withNodes := withSleeping
  key := Coroutine.sleepUsecs

def waitTree : Tree ℤ where
  nodes := waiting
  withNodes := withWaiting
  key := Coroutine.fd

section Trees

variable {κ : Type} [LinearOrder κ] [Inhabited κ] (T : Tree κ)

def Tree.keyOf (s : Schedule) (co : Co) : κ :=
  (s.coroutine co).elim default T.key

def rbFind (k : κ) : Exec Schedule (Option Co) := do
  let l ← traverse T.nodes
  return OrderedIndex.find (T.keyOf (← get)) k l

def rbInsert (co : Co) : Exec Schedule (Option Co) := do
  let l ← traverse T.nodes
  let _ ← deref co
  let (found, l') := OrderedIndex.insert (T.keyOf (← get)) co l
  modify (T.withNodes l')
  return found

/-- Only a node of the tree can be taken out of it. -/
def rbRemove (co : Co) : Exec Schedule Unit := do
  let l ← traverse T.nodes
  if co ∈ l then modify (T.withNodes (l.erase co)) else throw .badAddress

def rbMin : Exec Schedule (Option Co) := do
  let l ← traverse T.nodes
  return l.head?

end Trees

/-! ## Sleeping and waiting -/

/-- Arithmetic of `uint64_t`. -/
abbrev wrap64 (n : ℕ) : ℕ := n % 2 ^ 64

/-- A turn of the loop that looks for a free moment. -/
def sleepdownStep (co : Co) (_ : Unit) : Exec Schedule (Unit ⊕ Unit) := do
  match ← rbInsert sleepTree co with
  | some _ => do
      change co (fun c => { c with sleepUsecs := wrap64 (c.sleepUsecs + 1) })
      return .inl ()
  | none => do
      orStatus co CoroutineStatus.sleeping.bit
      return .inr ()

/-- Whoever wakes up at the moment that is left in the record leaves the
tree. -/
def forgetSleep (co : Co) : Exec Schedule Unit := do
  let c ← deref co
  match ← rbFind sleepTree c.sleepUsecs with
  | some tmp => rbRemove sleepTree tmp
  | none => return ()

def scheduleSchedSleepdown (co : Co) (msecs : ℕ) : Exec Schedule Unit := do
  let usecs := wrap64 (msecs * 1000)
  forgetSleep co
  let now := (← get).elapsed
  change co (fun c => { c with sleepUsecs := wrap64 (now + usecs) })
  if msecs = 0 then return ()
  else iterate (sleepdownStep co) ((← get).sleeping.length + 1) ()

def scheduleDeschedSleepdown (co : Co) : Exec Schedule Unit := do
  let c ← deref co
  if c.status.has .sleeping then do
    rbRemove sleepTree co
    change co (fun c =>
      { c with status := c.status &&& CoroutineStatus.sleeping.clearBit })
    orStatus co CoroutineStatus.ready.bit
    change co (fun c =>
      { c with status := c.status &&& CoroutineStatus.expired.clearBit })

/-- The record that was found is written without a test. -/
def scheduleSearchWait (fd : ℤ) : Exec Schedule Co := do
  match ← rbFind waitTree fd with
  | none => throw .badAddress
  | some co => do
      setStatus co 0
      return co

def scheduleDeschedWait (fd : ℤ) : Exec Schedule Unit := do
  match ← rbFind waitTree fd with
  | none => throw .badAddress
  | some co => do
      rbRemove waitTree co
      setStatus co 0
      scheduleDeschedSleepdown co

/-- What `nty_schedule_sched_wait` adds to the status: the constants of the
enumeration, not their bits. -/
def waitMask (events : BitVec 16) : Option Status :=
  if events &&& pollIn ≠ 0 then some CoroutineStatus.waitRead.value
  else if events &&& pollOut ≠ 0 then some CoroutineStatus.waitWrite.value
  else none

def scheduleSchedWait (co : Co) (fd : ℤ) (events : BitVec 16)
    (timeout : ℕ) : Exec Schedule Unit := do
  let c ← deref co
  if c.status.has .waitRead || c.status.has .waitWrite then throw .assertion
  else
    match waitMask events with
    | none => throw .assertion
    | some mask => do
        orStatus co mask
        change co (fun c => { c with fd := fd, events := events })
        match ← rbInsert waitTree co with
        | some _ => throw .assertion
        | none =>
            if timeout = 1 then return ()
            else scheduleSchedSleepdown co timeout

/-! ## Coroutines -/

def coroutineFree (co : Co) : Exec Schedule Unit := do
  let _ ← deref co
  modify (fun s => withSpawned (s.spawned - 1) s)
  modify (withCo co none)

def coroutineInit (co : Co) : Exec Schedule Unit :=
  change co (fun c =>
    { c with status := CoroutineStatus.ready.bit, context := .entry })

/-- What `nty_poll_inner` does before it yields.  Its callers pass one
descriptor, and the timeout 1. -/
def pollEnter (co : Co) (fd : ℤ) (events : BitVec 16) :
    Exec Schedule Unit := do
  modify (fun s =>
    if fd ∈ s.opened then withPoller (insert fd s.poller) s else s)
  change co (fun c => { c with events := events })
  scheduleSchedWait co fd events 1

/-- What `nty_poll_inner` does behind its yield. -/
def pollLeave (fd : ℤ) : Exec Schedule Unit := do
  modify (fun s => withPoller (s.poller.erase fd) s)
  scheduleDeschedWait fd

/-- `nty_coroutine_resume` until the coroutine runs code of its own. -/
def coroutineResume (co : Co) : Exec Schedule Unit := do
  let c ← deref co
  if c.status.has .new then coroutineInit co
  modify (withCurr (some co))
  match c.context with
  | .polling fd => pollLeave fd
  | _ => pure ()

/-- `nty_coroutine_yield`, and the rest of `nty_coroutine_resume`. -/
def coroutineYield (co : Co) (context : Context) : Exec Schedule Unit := do
  change co (fun c => { c with ops := 0, context := context })
  modify (withCurr none)
  let c ← deref co
  if c.status.has .exited && c.status.has .detach then coroutineFree co
  modify (fun s => withPhase (s.phase.behind co) s)

/-- `calloc` and `posix_memalign` grant the blocks of a coroutine, or one of
them fails. -/
def coroutineCreate (granted : Bool) : Exec Schedule Unit := do
  if granted then do
    let s ← get
    let co := s.created
    modify (withCo co (some
      { status := CoroutineStatus.new.bit
        id := s.spawned
        fd := -1
        events := 0
        ops := 0
        sleepUsecs := 0
        context := .entry }))
    modify (withCreated (co + 1))
    modify (fun s => withSpawned (s.spawned + 1) s)
    tailqInsertTail co
  else return ()

def coroutineSleep (co : Co) (msecs : ℕ) : Exec Schedule Unit := do
  if msecs = 0 then do
    tailqInsertTail co
    coroutineYield co .requeued
  -- there is no yield in this case
  else scheduleSchedSleepdown co msecs

def coroutineRenice (co : Co) : Exec Schedule Unit := do
  change co (fun c => { c with ops := c.ops + 1 })
  let c ← deref co
  if c.ops < 5 then return ()
  else do
    tailqInsertTail co
    coroutineYield co .requeued

def coroutineDetach (co : Co) : Exec Schedule Unit :=
  orStatus co CoroutineStatus.detach.bit

/-- What follows the function of the coroutine in `_exec`. -/
def execEnd (co : Co) : Exec Schedule Unit := do
  orStatus co (CoroutineStatus.exited.bit ||| CoroutineStatus.fdeof.bit |||
    CoroutineStatus.detach.bit)
  coroutineYield co .exited

/-! ## The loop -/

def scheduleExpired : Exec Schedule (Option Co) := do
  let now := (← get).elapsed
  match ← rbMin sleepTree with
  | none => return none
  | some co => do
      let c ← deref co
      if c.sleepUsecs ≤ now then do
        rbRemove sleepTree co
        return some co
      else return none

/-- The list `busy` is never used. -/
def scheduleIsdone (s : Schedule) : Bool :=
  s.waiting.isEmpty && s.sleeping.isEmpty && s.ready.isEmpty

abbrev defaultTimeout : ℕ := 3000000

def scheduleMinTimeout : Exec Schedule ℕ := do
  let now := (← get).elapsed
  match ← rbMin sleepTree with
  | none => return defaultTimeout
  | some co => do
      let c ← deref co
      return c.sleepUsecs - now

/-- The events are handled from the end of the array. -/
def scheduleEpoll (batch : List PollEvent) : Exec Schedule Unit := do
  let usecs ← scheduleMinTimeout
  let s ← get
  if usecs ≠ 0 ∧ s.ready = [] then modify (withEventlist batch.reverse)
  else modify (withEventlist [])

inductive Action
  /-- `main` calls `nty_schedule_run`. -/
  | run
  /-- The head of the outer loop. -/
  | turn
  | expire
  | ready
  | epoll (batch : List PollEvent)
  | dispatch
  | create (granted : Bool)
  | sleep (msecs : ℕ)
  | renice
  | detach
  /-- `nty_coroutine_yield` with the running coroutine. -/
  | yield
  | poll (fd : ℤ) (events : BitVec 16)
  /-- The function of the coroutine returns. -/
  | exit
  /-- The kernel hands out a descriptor. -/
  | openFd (fd : ℤ)
  | closeFd (fd : ℤ)
  | tick (elapsed : ℕ)

def turnLoop : Exec Schedule Unit := do
  let s ← get
  modify (withPhase (if scheduleIsdone s then .done else .expiring))

def expireLoop : Exec Schedule Unit := do
  match ← scheduleExpired with
  | some co => coroutineResume co
  | none => do
      let l ← traverse ready
      modify (withPhase (.readying l.getLast?))

def readyLoop : Exec Schedule Unit := do
  match ← traverse ready with
  | [] => modify (withPhase .polling)
  | co :: rest => do
      modify (withReady rest)
      let c ← deref co
      if c.status.has .fdeof then do
        coroutineFree co
        modify (withPhase .polling)
      else coroutineResume co

def dispatchLoop : Exec Schedule Unit := do
  match (← get).eventlist with
  | [] => modify (withPhase .turning)
  | ev :: rest => do
      modify (withEventlist rest)
      let co ← scheduleSearchWait ev.fd
      if ev.eof then orStatus co CoroutineStatus.fdeof.bit
      coroutineResume co

/-- What the running coroutine calls. -/
def runningAct (co : Co) : Action → Exec Schedule Unit
  | .create granted => coroutineCreate granted
  | .sleep msecs => coroutineSleep co msecs
  | .renice => coroutineRenice co
  | .detach => coroutineDetach co
  | .yield => coroutineYield co .requeued
  | .poll fd events => do
      pollEnter co fd events
      coroutineYield co (.polling fd)
  | .exit => execEnd co
  | .openFd fd => modify (fun s => withOpened (insert fd s.opened) s)
  | .closeFd fd => do
      modify (fun s => withOpened (s.opened.erase fd) s)
      modify (fun s => withPoller (s.poller.erase fd) s)
  | _ => throw .assertion

/-- The code between two points at which the scheduler or a coroutine decides
how to go on. -/
def act (a : Action) : Exec Schedule Unit := do
  match a with
  | .tick elapsed => modify (withElapsed elapsed)
  | _ =>
      match (← get).currThread with
      | some co => runningAct co a
      | none =>
          match a with
          | .run => modify (withPhase .turning)
          | .turn => turnLoop
          | .expire => expireLoop
          | .ready => readyLoop
          | .epoll batch => do
              scheduleEpoll batch
              modify (withPhase .dispatching)
          | .dispatch => dispatchLoop
          | .create granted => coroutineCreate granted
          | _ => throw .assertion

/-- `epoll_wait` reports a descriptor once. -/
def Reported (s : Schedule) (batch : List PollEvent) : Prop :=
  (batch.map PollEvent.fd).Nodup ∧ (∀ ev ∈ batch, ev.fd ∈ s.poller)

instance (s : Schedule) (batch : List PollEvent) :
    Decidable (s.Reported batch) :=
  inferInstanceAs (Decidable (_ ∧ ∀ ev ∈ batch, _))

/-- Which action can come next. -/
def Enabled (s : Schedule) : Action → Bool
  | .run => s.currThread.isNone && s.phase = .idle
  | .turn => s.currThread.isNone && s.phase = .turning
  | .expire => s.currThread.isNone && s.phase = .expiring
  | .ready => s.currThread.isNone && s.phase.isReadying
  | .epoll batch =>
      s.currThread.isNone && s.phase = .polling && s.Reported batch
  | .dispatch => s.currThread.isNone && s.phase = .dispatching
  | .create _ => s.currThread.isSome || s.phase = .idle
  | .openFd fd => s.currThread.isSome && fd ∉ s.opened
  | .tick _ => s.phase ≠ .done
  | _ => s.currThread.isSome

/-- A fault ends the run. -/
def scheduleStep (s : Schedule) (a : Action) : Option Schedule :=
  if s.Enabled a then ((act a).run s).toOption.map Prod.snd else none

end Schedule

end CAdvanced
