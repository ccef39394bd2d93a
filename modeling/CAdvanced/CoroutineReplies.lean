import CAdvanced.CoroutineConnections
import CAdvanced.ServedRequests

/-!
# What the clients of the coroutine server see

Whatever the order in which connections are accepted, resumed and written to,
the replies are those of the three maps to the requests in the order in which
they were received, and each connection gets the replies to its own requests.
-/

namespace CAdvanced

open Fallible
open KeyValue
open Transition
open Schedule
open Server

namespace NtycoServer

/-! ## The steps of the server -/

/-- Where an action of the server leads. -/
inductive Moves (P : Platform) (s : NtycoServer) :
    ServerAction → NtycoServer → Prop
  | entry (hphase : s.sched.phase = .idle)
      (hcurr : s.sched.currThread = none) :
      Moves P s (.entry true) (withSched (withPhase .turning
        (enlisted s.sched)) (withFrame s.sched.created .server s))
  | refused (hphase : s.sched.phase = .idle)
      (hcurr : s.sched.currThread = none) :
      Moves P s (.entry false) (withSched (withPhase .turning s.sched) s)
  | loop {a : Action} {sched' : Schedule} (hloop : isLoop a = true)
      (hnext : Next s.sched a sched') :
      Moves P s (.loop a) (withSched sched' s)
  | go {co : Co} {frame : Frame} {answer : Answer} {reply : List UInt8}
      {s' : NtycoServer} (hcurr : s.sched.currThread = some co)
      (hframe : s.frame co = some frame) (hcalls : frame.Calls answer = true)
      (hanswered : Answered P s.store reply s'.store answer)
      (hgoes : Goes co s (onward frame answer reply) (accepted answer) s') :
      Moves P s (.go answer) s'

/-- The request that a step receives. -/
def asked : ServerAction → Option CString
  | .go (.recv (.data bytes) _) =>
      if h : 0 ∉ bytes then some ⟨bytes, h⟩ else none
  | _ => none

/-- The reply that a step computes. -/
def replied (P : Platform) (s : NtycoServer) (a : ServerAction) :
    Option (List UInt8) :=
  (asked a).bind (fun msg =>
    ((readerRound P msg.bytes).run s.store).toOption.map Prod.fst)

/-- The connections are in order, and the engines hold their maps. -/
structure Serving (P : Platform) (s : NtycoServer) (m : Stores) : Prop where
  connected : Connected Everyone s
  holds : ServerHolds P s.store m

section Serving

variable {P : Platform} {s s' : NtycoServer} {m : Stores} {a : ServerAction}
  {co : Co}

theorem Connected.returns_entry (h : Connected Everyone s) {granted : Bool}
    (hphase : s.sched.phase = .idle) :
    Returns (ntycoEntry granted) s (fun _ s' => Connected Everyone s' ∧
      Moves P s (.entry granted) s') := by
  have hcurr : s.sched.currThread = none := by
    by_contra hne
    have hsome := Option.isSome_iff_ne_none.mpr hne
    rcases h.runs.loops.running hsome with hrun | hrun | hrun <;>
      rw [hphase] at hrun <;> cases hrun
  simp only [ntycoEntry, returns_bind, Fallible.returns_get]
  apply returns_onSched (a := .create granted) h.runs
    (by simp [Enabled, hphase]) trivial
  intro sched' hnext hruns
  cases hnext with
  | created =>
      simp only [reduceIte]
      have hcreated := h.create .server hruns (by
        intro fd hfd
        cases hfd)
      apply returns_onSched (a := .run) hcreated.runs
        (by simp [Enabled, enlisted, hcurr, hphase]) trivial
      intro sched'' hnext' hruns'
      have hmoves := Moves.entry (P := P) hphase hcurr
      cases hnext' with
      | run =>
          exact ⟨hcreated.keeps hruns' (.of_same rfl rfl rfl rfl rfl), hmoves⟩
  | refused =>
      simp only [Bool.false_eq_true, reduceIte]
      apply returns_onSched (a := .run) h.runs
        (by simp [Enabled, hcurr, hphase]) trivial
      intro sched'' hnext' hruns'
      cases hnext' with
      | run =>
          exact ⟨h.keeps hruns' (.of_same rfl rfl rfl rfl rfl),
            .refused hphase hcurr⟩

/-- No action that can be taken faults. -/
theorem Serving.returns_act (hP : P.Succeeds) (h : Serving P s m)
    (hcan : s.CanDo a = true) (hpermits : s.Permits P a) :
    Returns (serverAct P a) s (fun _ s' => Connected Everyone s' ∧
      Moves P s a s') := by
  cases a with
  | entry granted =>
      exact h.connected.returns_entry (of_decide_eq_true hcan)
  | loop a =>
      rw [CanDo, Bool.and_eq_true] at hcan
      apply returns_onSched h.connected.runs hcan.2 hpermits
      intro sched' hnext hruns
      exact ⟨h.connected.keeps hruns (hnext.keeps h.connected.sched hcan.1),
        .loop hcan.1 hnext⟩
  | go answer =>
      cases hrunning : s.running with
      | none =>
          rw [CanDo, hrunning] at hcan
          cases hcan
      | some r =>
          obtain ⟨co, frame⟩ := r
          rw [CanDo, hrunning] at hcan
          obtain ⟨hcurr, hframe⟩ := running_eq_some.mp hrunning
          simp only [serverAct, returns_bind, Fallible.returns_get, hrunning]
          have hstore : ∀ bytes ret, answer = .recv (.data bytes) ret →
              ∃ reply store', (readerRound P bytes).run s.store =
                .ok (reply, store') := by
            rintro bytes ret rfl
            obtain ⟨hnul, hmsg, hcount, hkey⟩ := hpermits
            obtain ⟨reply, store', hrun, -⟩ :=
              h.holds.returns_readerRound hP hmsg hcount hkey
            exact ⟨reply, store', hrun⟩
          apply (h.connected.returns_goFrame hcurr hframe hcan hpermits
            hstore).mono
          rintro _ s' ⟨hs', reply, hanswered, hgoes⟩
          exact ⟨hs', .go hcurr hframe hcan hanswered hgoes⟩

theorem Serving.step (hP : P.Succeeds) (h : Serving P s m)
    (hpermits : s.Permits P a) (hstep : serverStep P s a = some s') :
    Connected Everyone s' ∧ Moves P s a s' := by
  by_cases hcan : s.CanDo a = true
  · obtain ⟨_, s'', hrun, hmoves⟩ := h.returns_act hP hcan hpermits
    simp only [serverStep, hcan, reduceIte, hrun] at hstep
    cases hstep
    exact hmoves
  · simp [serverStep, hcan] at hstep

/-- Only a request that is received changes the maps. -/
theorem Serving.answers (hP : P.Succeeds) (h : Serving P s m)
    (hpermits : s.Permits P a) (hmoves : Moves P s a s') :
    replied P s a = (asked a).map (fun msg => (protocolSpec msg m).1.bytes) ∧
      ServerHolds P s'.store
        ((asked a).elim m (fun msg => (protocolSpec msg m).2)) := by
  cases hmoves with
  | entry => exact ⟨rfl, h.holds⟩
  | refused => exact ⟨rfl, h.holds⟩
  | loop => exact ⟨rfl, h.holds⟩
  | @go co frame answer reply _ hcurr hframe hcalls hanswered hgoes =>
      cases answer with
      | recv r ret =>
          cases r with
          | data bytes =>
              obtain ⟨hnul, hmsg, hcount, hkey⟩ := hpermits
              have hasked : asked (.go (.recv (.data bytes) ret)) =
                  some ⟨bytes, hnul⟩ := dif_pos hnul
              have hround : (readerRound P bytes).run s.store =
                  .ok (reply, s'.store) := hanswered
              obtain ⟨hreply, hholds⟩ := Returns.of_run
                (h.holds.returns_readerRound hP hmsg hcount hkey) hround
              simp only [replied, hasked, Option.bind_some, Option.map_some,
                Option.elim_some, hround]
              exact ⟨congrArg some hreply, hholds⟩
          | closed =>
              rw [show s'.store = s.store from hanswered]
              exact ⟨rfl, h.holds⟩
          | failed =>
              rw [show s'.store = s.store from hanswered]
              exact ⟨rfl, h.holds⟩
      | _ =>
          rw [show s'.store = s.store from hanswered]
          exact ⟨rfl, h.holds⟩

theorem Serving.next (hP : P.Succeeds) (h : Serving P s m)
    (hpermits : s.Permits P a) (hstep : serverStep P s a = some s') :
    Serving P s' ((asked a).elim m (fun msg => (protocolSpec msg m).2)) := by
  obtain ⟨hconnected, hmoves⟩ := h.step hP hpermits hstep
  exact ⟨hconnected, (h.answers hP hpermits hmoves).2⟩

end Serving

/-! ## Runs -/

section Runs

variable {P : Platform} {store : Server} {m : Stores}

/-- However the connections are interleaved, nothing faults, every connection
has a descriptor of its own and the engines hold maps. -/
theorem ntycoServer_safe (P : Platform) (hP : P.Succeeds) (store : Server)
    (hstore : ∃ m, ServerHolds P store m) :
    ∀ s, Reach (serverStep P) (Permits P) (start store) s →
      Connected Everyone s ∧ (∃ m, ServerHolds P s.store m) ∧
        ∀ a, s.CanDo a = true → s.Permits P a →
          ∃ s', serverStep P s a = some s' := by
  intro s hs
  obtain ⟨m₀, hm₀⟩ := hstore
  have hserving : ∃ m, Serving P s m := by
    apply hs.invariant ⟨m₀, connected_start store, hm₀⟩
    rintro s a s' ⟨m, hserving⟩ hpermits hstep
    exact ⟨_, hserving.next hP hpermits hstep⟩
  obtain ⟨m, hserving⟩ := hserving
  refine ⟨hserving.connected, ⟨m, hserving.holds⟩, ?_⟩
  intro a hcan hpermits
  obtain ⟨_, s', hrun, -⟩ := hserving.returns_act hP hcan hpermits
  refine ⟨s', ?_⟩
  simp only [serverStep, hcan, reduceIte, hrun]
  rfl

/-! ## A sample -/

/-- The server listens, and accepts a first connection. -/
def sampleAccept : List ServerAction :=
  [.entry true, .loop .turn, .loop .expire, .loop .ready, .go (.socket 3),
    .loop (.epoll [⟨3, false⟩]), .loop .dispatch, .go (.accept 4 true),
    .loop .dispatch, .loop .turn, .loop .expire, .loop .ready, .go .start]

/-- The first client sends `RSET k v`, of whose reply 3 bytes are taken; then a
second one sends `RGET k`, whose reply is not taken at once. -/
def sampleActions : List ServerAction :=
  sampleAccept ++
    [.loop (.epoll [⟨3, false⟩, ⟨4, false⟩]), .loop .dispatch,
      .go (.recv (.data (ascii ['R', 'S', 'E', 'T', ' ', 'k', ' ', 'v'])) 3),
      .loop .dispatch, .go (.accept 5 true), .loop .dispatch, .loop .turn,
      .loop .expire, .loop .ready, .go .start, .loop (.epoll [⟨5, false⟩]),
      .loop .dispatch,
      .go (.recv (.data (ascii ['R', 'G', 'E', 'T', ' ', 'k'])) (-1))]

theorem ntycoServer_safe_sample : ∃ s s',
    Reach (serverStep samplePlatform) (Permits samplePlatform)
      (start sampleStore) s ∧
    Connected Everyone s ∧ (∃ m, ServerHolds samplePlatform s.store m) ∧
    serverStep samplePlatform s (.loop .dispatch) = some s' := by
  obtain ⟨s, hrun⟩ := Option.isSome_iff_exists.mp
    (by decide +kernel : (execute (serverStep samplePlatform) sampleActions
      (start sampleStore)).isSome)
  have hs := Reach.start.execute sampleActions (by decide +kernel :
    Heeds (serverStep samplePlatform) (Permits samplePlatform) sampleActions
      (start sampleStore)) hrun
  have hcan : ∀ u ∈ execute (serverStep samplePlatform) sampleActions
      (start sampleStore), u.CanDo (.loop .dispatch) = true := by
    decide +kernel
  obtain ⟨hconnected, hholds, hnext⟩ := ntycoServer_safe samplePlatform
    samplePlatform_succeeds sampleStore ⟨_, sampleStore_holds⟩ s hs
  obtain ⟨s', hs'⟩ := hnext (.loop .dispatch) (hcan s hrun) trivial
  exact ⟨s, s', hs, hconnected, hholds, hs'⟩

/-- The requests of all connections, in the order in which they come in. -/
abbrev requests (P : Platform) : List ServerAction → NtycoServer →
    List CString :=
  observed (serverStep P) (fun _ a => (asked a).toList)

abbrev replies (P : Platform) : List ServerAction → NtycoServer →
    List (List UInt8) :=
  observed (serverStep P) (fun s a => (replied P s a).toList)

theorem Serving.runs (hP : P.Succeeds) {s t : NtycoServer}
    (h : Serving P s m) {actions : List ServerAction}
    (hheeds : Heeds (serverStep P) (Permits P) actions s)
    (hrun : execute (serverStep P) actions s = some t) :
    replies P actions s = (specRun protocolSpec (requests P actions s)
        m).1.map CString.bytes ∧
      Serving P t (specRun protocolSpec (requests P actions s) m).2 := by
  apply observed_specRun protocolSpec CString.bytes (fun _ a => asked a)
    (replied P) (Serving P) ?_ h hheeds hrun
  intro s a s' m hserving hpermits hstep
  obtain ⟨-, hmoves⟩ := hserving.step hP hpermits hstep
  exact ⟨(hserving.answers hP hpermits hmoves).1,
    hserving.next hP hpermits hstep⟩

/-- The server answers as if it met the requests one after the other. -/
theorem ntycoServer_replies (P : Platform) (hP : P.Succeeds) (store : Server)
    (m : Stores) (hstore : ServerHolds P store m) :
    ∀ actions t, Heeds (serverStep P) (Permits P) actions (start store) →
      execute (serverStep P) actions (start store) = some t →
      replies P actions (start store) =
          (specRun protocolSpec (requests P actions (start store))
            m).1.map CString.bytes ∧
        ServerHolds P t.store
          (specRun protocolSpec (requests P actions (start store)) m).2 := by
  intro actions t hheeds hrun
  have hserving : Serving P (start store) m := ⟨connected_start store, hstore⟩
  obtain ⟨hreplies, hlast⟩ := hserving.runs hP hheeds hrun
  exact ⟨hreplies, hlast.holds⟩

/-- The second client reads what the first one has written, though the first
one has not got its reply yet. -/
theorem ntycoServer_replies_sample :
    replies samplePlatform sampleActions (start sampleStore) =
      (specRun protocolSpec
        (requests samplePlatform sampleActions (start sampleStore))
        .empty).1.map CString.bytes := by
  obtain ⟨t, hrun⟩ := Option.isSome_iff_exists.mp
    (by decide +kernel : (execute (serverStep samplePlatform) sampleActions
      (start sampleStore)).isSome)
  exact (ntycoServer_replies samplePlatform samplePlatform_succeeds sampleStore
    .empty sampleStore_holds sampleActions t (by decide +kernel) hrun).1

end Runs

/-! ## What is sent -/

/-- The bytes that a step adds to what is to be sent. -/
def gained (answer : Answer) (reply : List UInt8) : List UInt8 :=
  match answer with
  | .recv (.data _) _ => reply
  | _ => []

/-- The bytes that the kernel takes in a step. -/
def given (frame : Frame) (answer : Answer) (reply : List UInt8) :
    List UInt8 :=
  match answer with
  | .recv (.data _) ret => reply.take ret.toNat
  | .send ret => frame.unsent.take ret.toNat
  | _ => []

/-- The first `send` of a reply takes bytes or fails; every later one, behind a
poll, takes bytes. -/
def Takes : ServerAction → Prop
  | .go (.recv (.data _) ret) => ret ≠ 0
  | .go (.send ret) => 0 < ret
  | _ => True

instance : ∀ a, Decidable (Takes a)
  | .go (.recv (.data _) ret) => inferInstanceAs (Decidable (ret ≠ 0))
  | .go (.send ret) => inferInstanceAs (Decidable (0 < ret))
  | .entry _ | .loop _ | .go .start | .go .again | .go (.socket _)
  | .go (.accept _ _) | .go (.recv .closed _)
  | .go (.recv .failed _) => inferInstanceAs (Decidable True)

/-- What a coroutine still has to send. -/
def pending (co : Co) (s : NtycoServer) : List UInt8 :=
  (s.frame co).elim [] Frame.unsent

/-- What the coroutine replies in a step. -/
def made (P : Platform) (co : Co) (s : NtycoServer) (a : ServerAction) :
    List UInt8 :=
  if s.sched.currThread = some co then (replied P s a).getD [] else []

/-- What the kernel takes from the coroutine in a step. -/
def taken (P : Platform) (co : Co) (s : NtycoServer) (a : ServerAction) :
    List UInt8 :=
  match s.running, a with
  | some (x, frame), .go answer =>
      if x = co then given frame answer ((replied P s a).getD []) else []
  | _, _ => []

section Sending

variable {P : Platform} {s s' : NtycoServer} {m : Stores} {a : ServerAction}
  {co : Co} {frame : Frame} {answer : Answer} {reply : List UInt8}

theorem unsent_afterSend_inr (fd ret : ℤ) (h : frame.unsent = []) :
    ((afterSend fd (.inr ret)).getD frame).unsent = [] := by
  rw [afterSend]
  split_ifs
  · exact h
  · rfl

/-- No byte of a reply is lost or sent twice. -/
theorem unsent_onward (hcalls : frame.Calls answer = true)
    (htakes : Takes (.go answer)) :
    frame.unsent ++ gained answer reply = given frame answer reply ++
      ((onward frame answer reply).getD frame).unsent := by
  cases frame with
  | server =>
      cases answer with
      | socket fd =>
          simp only [onward]
          split_ifs <;> rfl
      | _ => cases hcalls
  | accept fd => cases answer <;> first | rfl | cases hcalls
  | serverReader fd => cases answer <;> first | rfl | cases hcalls
  | recv fd =>
      cases answer with
      | recv r ret =>
          cases r with
          | data bytes =>
              have hret : (if 0 < ret then ret.toNat else 0) = ret.toNat := by
                split_ifs <;> omega
              simp only [onward, sendFirst, if_neg (show ret ≠ 0 from htakes),
                hret, gained, given]
              split_ifs with hpart
              · exact (List.take_append_drop ret.toNat reply).symm
              · rw [unsent_afterSend_inr fd _ rfl,
                  List.take_of_length_le (not_lt.mp hpart), List.append_nil]
                rfl
              · rw [unsent_afterSend_inr fd _ rfl,
                  List.take_of_length_le (not_lt.mp hpart), List.append_nil]
                rfl
          | closed => rfl
          | failed => rfl
      | _ => cases hcalls
  | send fd buf sent =>
      cases answer with
      | send ret =>
          have hret : ¬ ret ≤ 0 := not_le.mpr htakes
          simp only [onward, sendNext, if_neg hret, gained, given,
            Frame.unsent, List.append_nil]
          split_ifs with hpart
          · simp only [afterSend, Option.getD_some]
            rw [← List.drop_drop, List.take_append_drop]
          · have hne : (((sent + ret.toNat : ℕ) : ℤ)) ≠ -1 := by omega
            simp only [afterSend, if_neg hne, Option.getD_some,
              List.append_nil]
            apply (List.take_of_length_le _).symm
            rw [List.length_drop]
            omega
      | _ => cases hcalls

theorem replied_eq_gained (hpermits : s.Permits P (.go answer))
    (hanswered : Answered P s.store reply s'.store answer) :
    (replied P s (.go answer)).getD [] = gained answer reply := by
  cases answer with
  | recv r ret =>
      cases r with
      | data bytes =>
          obtain ⟨hnul, -⟩ := hpermits
          have hround : (readerRound P bytes).run s.store =
              .ok (reply, s'.store) := hanswered
          have hasked : asked (.go (.recv (.data bytes) ret)) =
              some ⟨bytes, hnul⟩ := dif_pos hnul
          rw [replied, hasked, Option.bind_some, hround]
          rfl
      | closed => rfl
      | failed => rfl
  | _ => rfl

theorem given_gained :
    given frame answer (gained answer reply) = given frame answer reply := by
  cases answer with
  | recv r ret => cases r <;> rfl
  | _ => rfl

/-- A coroutine that is not created has no frame. -/
def Unborn (s : NtycoServer) : Prop :=
  ∀ co, s.sched.created ≤ co → s.frame co = none

theorem Goes.frame_of_ne {next : Option Frame} {cli : Option ℤ} {x : Co}
    (h : Goes co s next cli s') (hx : x ≠ co)
    (hnew : x = s.sched.created → cli = none) : s'.frame x = s.frame x := by
  have hframes : (cli.elim s.frame (fun fd => Function.update s.frame
      s.sched.created (some (.serverReader fd)))) x = s.frame x := by
    cases cli with
    | none => rfl
    | some fd =>
        apply Function.update_of_ne
        rintro rfl
        cases hnew rfl
  rw [h.frame, framesAfter]
  cases next with
  | none => exact hframes
  | some frame' => exact (Function.update_of_ne hx _ _).trans hframes

theorem Goes.frame_self {next : Option Frame} {cli : Option ℤ}
    (h : Goes co s next cli s') (hco : co ≠ s.sched.created)
    (hframe : s.frame co = some frame) :
    s'.frame co = some (next.getD frame) := by
  rw [h.frame, framesAfter]
  cases next with
  | none =>
      cases cli with
      | none => exact hframe
      | some fd => exact (Function.update_of_ne hco _ _).trans hframe
  | some frame' => exact Function.update_self _ _ _

theorem Goes.frame_new {next : Option Frame} {fd : ℤ}
    (h : Goes co s next (some fd) s') (hco : co ≠ s.sched.created) :
    s'.frame s.sched.created = some (.serverReader fd) := by
  rw [h.frame, framesAfter]
  cases next with
  | none => exact Function.update_self _ _ _
  | some frame' =>
      exact (Function.update_of_ne hco.symm _ _).trans
        (Function.update_self _ _ _)

theorem Connected.born (h : Connected Everyone s)
    (hcurr : s.sched.currThread = some co) : ¬ s.sched.created ≤ co := by
  intro hle
  have hlive := h.sched.curr co hcurr
  rw [h.sched.fresh co hle] at hlive
  cases hlive

theorem Moves.unborn (h : Connected Everyone s) (hunborn : Unborn s)
    (hmoves : Moves P s a s') : Unborn s' := by
  cases hmoves with
  | entry =>
      intro x hx
      have hlt : s.sched.created < x := hx
      exact (Function.update_of_ne (Nat.ne_of_gt hlt) _ _).trans
        (hunborn x hlt.le)
  | refused => exact hunborn
  | loop hloop hnext =>
      intro x hx
      rw [withSched_sched, (hnext.keeps h.sched hloop).created] at hx
      exact hunborn x hx
  | @go co frame answer reply _ hcurr hframe hcalls hanswered hgoes =>
      intro x hx
      have hborn := h.born hcurr
      rw [hgoes.created] at hx
      have hne : x ≠ co := by
        rintro rfl
        omega
      rw [hgoes.frame_of_ne hne]
      · exact hunborn x (by omega)
      · rintro rfl
        cases hcli : accepted answer with
        | none => rfl
        | some fd =>
            rw [hcli] at hx
            simp at hx

/-- What the coroutine replies is sent or pending. -/
theorem Moves.balance (h : Connected Everyone s) (hunborn : Unborn s)
    (hpermits : s.Permits P a) (htakes : Takes a) (hmoves : Moves P s a s') :
    pending co s ++ made P co s a = taken P co s a ++ pending co s' := by
  have hnew : pending s.sched.created s = [] := by
    rw [pending, hunborn _ le_rfl]
    rfl
  cases hmoves with
  | entry _ hcurr =>
      have hrunning : s.running = none := by
        rw [running, hcurr]
        rfl
      simp only [made, taken, hcurr, hrunning, reduceCtorEq, reduceIte,
        List.append_nil, List.nil_append]
      by_cases hne : co = s.sched.created
      · rw [hne, hnew]
        simp [pending, Frame.unsent]
      · simp [pending, hne]
  | refused _ hcurr =>
      have hrunning : s.running = none := by
        rw [running, hcurr]
        rfl
      simp only [made, taken, hcurr, hrunning, reduceCtorEq, reduceIte,
        List.append_nil, List.nil_append]
      rfl
  | @loop b sched' hloop hnext =>
      have hmade : made P co s (.loop b) = [] := by
        rw [made]
        split_ifs <;> rfl
      have htaken : taken P co s (.loop b) = [] := by
        unfold taken
        cases s.running <;> rfl
      rw [hmade, htaken, List.append_nil, List.nil_append]
      rfl
  | @go x frame answer reply _ hcurr hframe hcalls hanswered hgoes =>
      have hnot : x ≠ s.sched.created := by
        intro heq
        exact h.born hcurr heq.ge
      have hrunning := running_eq_some.mpr ⟨hcurr, hframe⟩
      simp only [made, taken, hcurr, hrunning, Option.some.injEq,
        replied_eq_gained hpermits hanswered, given_gained]
      by_cases hx : x = co
      · subst hx
        simp only [reduceIte, pending, hframe,
          hgoes.frame_self hnot hframe, Option.elim_some]
        exact unsent_onward hcalls htakes
      · rw [if_neg hx, if_neg hx, List.append_nil, List.nil_append]
        by_cases hco : co = s.sched.created
        · subst hco
          rw [hnew]
          cases hcli : accepted answer with
          | none =>
              rw [pending, hgoes.frame_of_ne (Ne.symm hx) (fun _ => hcli)]
              exact hnew.symm
          | some fd =>
              rw [hcli] at hgoes
              rw [pending, hgoes.frame_new hx]
              rfl
        · rw [pending, pending,
            hgoes.frame_of_ne (Ne.symm hx) (fun heq => absurd heq hco)]

/-- The bytes that are sent for a coroutine are the replies that it computed,
in their order, up to a part of the last one that is left. -/
theorem ntycoServer_sends (P : Platform) (hP : P.Succeeds) (store : Server)
    (hstore : ∃ m, ServerHolds P store m) :
    ∀ actions t co,
      Heeds (serverStep P) (fun s a => s.Permits P a ∧ Takes a) actions
        (start store) →
      execute (serverStep P) actions (start store) = some t →
      observed (serverStep P) (made P co) actions (start store) =
        observed (serverStep P) (taken P co) actions (start store) ++
          pending co t := by
  intro actions t co hheeds hrun
  obtain ⟨m₀, hm₀⟩ := hstore
  apply observed_balance (fun s => Unborn s ∧ ∃ m, Serving P s m)
    (pending co) ?_ ?_ ⟨fun _ _ => rfl, m₀, connected_start store, hm₀⟩ hheeds
    hrun
  · rintro s a s' ⟨hunborn, m, hserving⟩ ⟨hpermits, -⟩ hstep
    obtain ⟨-, hmoves⟩ := hserving.step hP hpermits hstep
    exact ⟨hmoves.unborn hserving.connected hunborn, _,
      hserving.next hP hpermits hstep⟩
  · rintro s a s' ⟨hunborn, m, hserving⟩ ⟨hpermits, htakes⟩ hstep
    obtain ⟨-, hmoves⟩ := hserving.step hP hpermits hstep
    exact hmoves.balance hserving.connected hunborn hpermits htakes

theorem ntycoServer_sends_sample : ∃ t,
    execute (serverStep samplePlatform) sampleActions (start sampleStore) =
      some t ∧
    observed (serverStep samplePlatform) (made samplePlatform 1) sampleActions
        (start sampleStore) =
      observed (serverStep samplePlatform) (taken samplePlatform 1)
          sampleActions (start sampleStore) ++ pending 1 t := by
  obtain ⟨t, hrun⟩ := Option.isSome_iff_exists.mp
    (by decide +kernel : (execute (serverStep samplePlatform) sampleActions
      (start sampleStore)).isSome)
  exact ⟨t, hrun, ntycoServer_sends samplePlatform samplePlatform_succeeds
    sampleStore ⟨_, sampleStore_holds⟩ sampleActions t 1 (by decide +kernel)
    hrun⟩

end Sending

end NtycoServer

end CAdvanced
