import CAdvanced.Reactor

/-!
# The receive window of the reactor

`recv_cb` adds whatever `recv` returns to `rlength`, so an error moves the
window to the left.  The window lies inside the buffer, and errors leave it
alone, as long as no `recv` fails.
-/

namespace CAdvanced

open Fallible
open Transition

namespace Reactor

/-- `recv` returns -1, or a count of at most the bytes of its window. -/
def RecvAllowed (s : Reactor) : Event → Prop
  | .input fd r => r.count ≤ s.window fd
  | _ => True

instance (s : Reactor) : ∀ e, Decidable (RecvAllowed s e)
  | .input _ _ => inferInstanceAs (Decidable (_ ≤ _))
  | .accept _ | .hangUp _ | .output _ _ => isTrue trivial

/-- The window of every open connection lies inside its buffer. -/
def WindowsInside (s : Reactor) : Prop :=
  ∀ fd, s.opened fd = true → 0 ≤ (s.connectionList fd).rlength ∧
    (s.connectionList fd).rlength ≤ bufferLength

/-- The windows lie inside their buffers, and a failed `recv` leaves `rlength`
as it is. -/
def WindowSafe (s : Reactor) (e : Event) : Prop :=
  ∀ s' ∈ reactorStep s e, WindowsInside s' ∧
    ∀ fd, e = .input fd .failed →
      (s'.connectionList fd).rlength = (s.connectionList fd).rlength

def RecvSucceeds (_ : Reactor) : Event → Prop
  | .input _ .failed => False
  | _ => True

instance (s : Reactor) : ∀ e, Decidable (RecvSucceeds s e)
  | .input _ .failed => isFalse id
  | .input _ (.data _) | .input _ .closed => isTrue trivial
  | .accept _ | .hangUp _ | .output _ _ => isTrue trivial

section Steps

variable {s s' : Reactor} {e : Event}

theorem Counted.windowsInside (h : Counted s) : WindowsInside s := by
  intro fd hopened
  have hrlength := h.rlength fd hopened
  have hfits := h.fits fd hopened
  omega

theorem counted_step (h : Counted s) (hallowed : RecvAllowed s e)
    (hsucceeds : RecvSucceeds s e) (hstep : reactorStep s e = some s') :
    Counted s' := by
  cases e with
  | input fd r =>
      simp only [reactorStep] at hstep
      split_ifs at hstep with hwatched
      have hopened := h.opened fd (by rw [hwatched]; simp)
      by_cases hzero : r.count = 0
      · obtain ⟨a, rfl⟩ :=
          after_of_returns (returns_recvCb_close hzero) hstep
        exact counted_close h
      · have hpos : 1 ≤ r.count := by
          cases r with
          | data bytes =>
              have hnonneg := Int.natCast_nonneg bytes.length
              simp only [Received.count] at hzero ⊢
              omega
          | closed => exact absurd rfl hzero
          | failed => exact hsucceeds.elim
        have hrlength := (h.windowsInside fd hopened).1
        obtain ⟨a, rfl⟩ := after_of_returns
          (returns_recvCb_data hpos hrlength hallowed) hstep
        exact counted_received h hopened hpos hallowed
  | accept clientfd =>
      have hrecv : RecvContract s (.accept clientfd) := trivial
      exact counted_happens h (happens_of_reactorStep h hrecv hstep)
  | hangUp fd =>
      have hrecv : RecvContract s (.hangUp fd) := trivial
      exact counted_happens h (happens_of_reactorStep h hrecv hstep)
  | output fd send =>
      have hrecv : RecvContract s (.output fd send) := trivial
      exact counted_happens h (happens_of_reactorStep h hrecv hstep)

theorem returns_of_after {m : Exec Reactor ℤ} (hafter : after m s = some s') :
    Returns m s (fun _ t => t = s') := by
  cases hrun : m.run s with
  | ok p =>
      rw [after, hrun] at hafter
      cases hafter
      exact ⟨p.1, p.2, hrun, rfl⟩
  | error fault =>
      rw [after, hrun] at hafter
      cases hafter

/-- After a failed `recv` the window starts one byte further to the left. -/
theorem rlength_failed {fd : Fin connectionMax}
    (hstep : reactorStep s (.input fd .failed) = some s') :
    (s'.connectionList fd).rlength = (s.connectionList fd).rlength - 1 := by
  simp only [reactorStep] at hstep
  split_ifs at hstep with hwatched
  have hreturns := returns_of_after hstep
  simp only [recvCb, recvAt, addRlength, setEvent, httpResponse,
    Received.bytes, Received.count, true_or, reduceIte, returns_bind,
    returns_ite, Fallible.returns_get, returns_modify, returns_pure,
    deliver_nil, show ¬ (-1 : ℤ) = 0 by decide, returns_throw] at hreturns
  split_ifs at hreturns with hint
  subst hreturns
  simp only [respond_connectionList, watch_connectionList,
    withRlength_connectionList, Function.update_self]
  rfl

theorem recvSucceeds_of_windowSafe (hsafe : WindowSafe s e)
    (hstep : reactorStep s e = some s') : RecvSucceeds s e := by
  cases e with
  | input fd r =>
      cases r with
      | data bytes => trivial
      | closed => trivial
      | failed =>
          have hkept := (hsafe s' hstep).2 fd rfl
          have hmoved := rlength_failed hstep
          omega
  | accept clientfd => trivial
  | hangUp fd => trivial
  | output fd send => trivial

theorem heeds_recvSucceeds {events : List Event}
    (hsafe : Heeds reactorStep WindowSafe events s)
    (hrun : execute reactorStep events s = some s') :
    Heeds reactorStep RecvSucceeds events s := by
  apply heeds_of_invariant (fun _ _ _ (_ : True) _ _ => trivial) ?_ trivial
    hsafe hrun
  intro s e s' _ hsafe hstep
  exact recvSucceeds_of_windowSafe hsafe hstep

end Steps

/-- Every window lies inside its buffer and no error moves one, exactly in the
runs in which no `recv` fails. -/
theorem windowSafe_iff {events : List Event} {s : Reactor}
    (hrun : execute reactorStep events initial = some s)
    (hallowed : Heeds reactorStep RecvAllowed events initial) :
    Heeds reactorStep WindowSafe events initial ↔
      Heeds reactorStep RecvSucceeds events initial := by
  constructor
  · intro hsafe
    exact heeds_recvSucceeds hsafe hrun
  · intro hsucceeds
    refine heeds_of_invariant ?_ ?_ counted_initial
      (heeds_and.mpr ⟨hallowed, hsucceeds⟩) hrun
    · intro s e s' h hguard hstep
      exact counted_step h hguard.1 hguard.2 hstep
    · intro s e s' h hguard hstep t ht
      rw [Option.mem_def, hstep, Option.some.injEq] at ht
      subst ht
      refine ⟨(counted_step h hguard.1 hguard.2 hstep).windowsInside, ?_⟩
      intro fd hfailed
      subst hfailed
      exact hguard.2.elim

theorem windowSafe_iff_sample :
    Heeds reactorStep WindowSafe shortSession initial := by
  have hsome : (execute reactorStep shortSession initial).isSome = true := by
    decide +kernel
  obtain ⟨s, hrun⟩ := Option.isSome_iff_exists.mp hsome
  exact (windowSafe_iff hrun (by decide +kernel)).mpr (by decide +kernel)

/-- The first `recv` of a connection fails. -/
def failedSession (fd : Fin connectionMax) : List Event :=
  [.accept (some fd), .input fd .failed]

/-- The window then starts in front of the buffer. -/
theorem windowSafe_failedSession :
    Heeds reactorStep RecvAllowed (failedSession 0) initial ∧
      (∃ s, execute reactorStep (failedSession 0) initial = some s ∧
        s.opened 0 = true ∧ (s.connectionList 0).rlength = -1) ∧
      ¬ Heeds reactorStep WindowSafe (failedSession 0) initial := by
  have hallowed :
      Heeds reactorStep RecvAllowed (failedSession 0) initial := by
    decide +kernel
  have hrun : (execute reactorStep (failedSession 0) initial).any (fun s =>
      s.opened 0 && (s.connectionList 0).rlength == -1) = true := by
    decide +kernel
  obtain ⟨s, hs, hend⟩ := (Option.any_eq_true _ _).mp hrun
  simp only [Bool.and_eq_true, beq_iff_eq] at hend
  refine ⟨hallowed, ⟨s, hs, hend⟩, ?_⟩
  intro hsafe
  exact absurd (heeds_recvSucceeds hsafe hs) (by decide +kernel)

end Reactor

end CAdvanced
